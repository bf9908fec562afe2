/-
# Function patterns in passes

`Canvas::draw_finder_patterns`, `Canvas::draw_timing_pattern` and
`Canvas::draw_alignment_patterns`, as loops over `Canvas::set`.

Function patterns can be drawn in three passes, each of them stroke by stroke:

| pass | strokes |
| --- | --- |
| finders | around three centres, the inner separator included; two centres count from a far edge |
| timing | one cell of row 6 and one of column 6 at a time |
| alignment | around all pairs of positions, those passed over where a finder stands |

The passes meet: alignment patterns lie across the timing lines.  But each stroke has the
colour that its place has in the version (`Strokes.Follow`), and none of those places is
missed.  So the passes draw what a single look at each cell draws (`Draft.drawPasses_eq`).

None of the places belongs to the format information.  Hence function patterns may be drawn
before or after a mask is applied.
-/

import QRCode.Proofs.Patterns
import QRCode.Proofs.Strokes

namespace QRCode

open FunctionPattern

/-! ### The strokes of the passes -/

namespace FunctionPattern

/-- Strokes at given offsets from a centre; the ring that a stroke lies on decides its colour. -/
def ringStrokes (isDark : Nat → Bool) (centre : Int × Int) (rows columns : List Int) :
    List ((Int × Int) × Colour) :=
  rows.flatMap fun i => columns.map fun j =>
    ((centre.1 + i, centre.2 + j), .ofBit (isDark (max i.natAbs j.natAbs)))

/-- The centres of the finders, in signed coordinates. -/
def signedFinderCentres : List (Int × Int) := [(3, 3), (3, -4), (-4, 3)]

/-- The offsets of a finder, with its separator on the inner side. -/
def finderOffsets (x : Int) : List Int :=
  if 0 < x then [-3, -2, -1, 0, 1, 2, 3, 4] else [-4, -3, -2, -1, 0, 1, 2, 3]

/-- The strokes of the finders and their separators (`Canvas::draw_finder_pattern_at`). -/
def finderStrokes : List ((Int × Int) × Colour) :=
  signedFinderCentres.flatMap fun x =>
    ringStrokes (fun ring => ring ≠ 2 ∧ ring ≠ 4) x (finderOffsets x.1) (finderOffsets x.2)

/-- The strokes of both timing lines (`Canvas::draw_timing_pattern`). -/
def timingStrokes (n : Nat) : List ((Int × Int) × Colour) :=
  (List.range' 8 (n - 16)).flatMap fun i : Nat =>
    [((6, (i : Int)), .ofBit (i % 2 = 0)), (((i : Int), 6), .ofBit (i % 2 = 0))]

/-- The offsets of an alignment pattern. -/
def alignmentOffsets : List Int := [-2, -1, 0, 1, 2]

/-- The strokes of the alignment patterns (`Canvas::draw_alignment_patterns`). -/
def alignmentStrokes (v : Version) : List ((Int × Int) × Colour) :=
  v.alignment.flatMap fun r => v.alignment.flatMap fun c =>
    if isFinderCorner v.width (r, c) then []
    else ringStrokes (fun ring => ring ≠ 1) (r, c) alignmentOffsets alignmentOffsets

end FunctionPattern

namespace Draft

/-- All function patterns, pass after pass (`Canvas::draw_all_function_patterns`). -/
def drawPasses (d : Draft) : Except Error Draft := do
  let d ← d.strokeAll .function finderStrokes
  let d ← d.strokeAll .function (timingStrokes d.width)
  d.strokeAll .function (alignmentStrokes d.version)

end Draft

/-! ### Offsets from a centre -/

namespace FunctionPattern

/-- A signed coordinate and one at an offset from it lie within the edges, and count from the
same edge. -/
def Beside (n : Nat) (x i : Int) : Prop :=
  (0 ≤ x ∧ x < n) ∧ (0 ≤ x + i ∧ x + i < n) ∨ (-(n : Int) ≤ x ∧ x < 0) ∧ (-(n : Int) ≤ x + i ∧ x + i < 0)

variable {n k : Nat} {x i : Int} {centre : Int × Int} {rows columns : List Int} {isDark : Nat → Bool}
variable {s : (Int × Int) × Colour} {v : Version} {p : Nat × Nat}

/-- An offset from a coordinate beside an edge stays within the edges. -/
theorem Beside.within (h : Beside n x i) : -(n : Int) ≤ x + i ∧ x + i < n := by
  unfold Beside at h
  omega

/-- An offset between coordinates is one between places. -/
theorem Beside.toNat_emod (h : Beside n x i) : (((x + i) % n).toNat : Int) = ((x % n).toNat : Int) + i := by
  unfold Beside at h
  have hx := Draft.toNat_emod (n := n) (x := x) (by omega)
  have hxi := Draft.toNat_emod (n := n) (x := x + i) (by omega)
  omega

/-- Places at an offset have the distance of that offset. -/
theorem Beside.gap (h : Beside n x i) : gap ((x + i) % n).toNat (x % n).toNat = i.natAbs := by
  have := h.toNat_emod
  unfold FunctionPattern.gap
  omega

/-- Offsets from a coordinate that keep within the edges and within a distance. -/
def Around (n k : Nat) (x : Int) (offsets : List Int) : Prop :=
  ∀ i ∈ offsets, Beside n x i ∧ i.natAbs ≤ k

/-- Strokes around a centre are one for each pair of offsets. -/
theorem mem_ringStrokes :
    s ∈ ringStrokes isDark centre rows columns ↔
      ∃ i ∈ rows, ∃ j ∈ columns,
        ((centre.1 + i, centre.2 + j), Colour.ofBit (isDark (max i.natAbs j.natAbs))) = s := by
  simp only [ringStrokes, List.mem_flatMap, List.mem_map]

/-- **The ring of a stroke is the distance of its place from the centre.** -/
theorem ringStrokes_follow (hrows : Around n k centre.1 rows) (hcolumns : Around n k centre.2 columns)
    (hs : s ∈ ringStrokes isDark centre rows columns) :
    Draft.Within n s.1 ∧ kingDistance (Draft.placeOf n s.1) (Draft.placeOf n centre) ≤ k ∧
      s.2 = .ofBit (isDark (kingDistance (Draft.placeOf n s.1) (Draft.placeOf n centre))) := by
  obtain ⟨i, hi, j, hj, rfl⟩ := mem_ringStrokes.1 hs
  obtain ⟨hrow, hik⟩ := hrows i hi
  obtain ⟨hcolumn, hjk⟩ := hcolumns j hj
  have hring : kingDistance (Draft.placeOf n (centre.1 + i, centre.2 + j)) (Draft.placeOf n centre) =
      max i.natAbs j.natAbs := congrArg₂ max hrow.gap hcolumn.gap
  rw [hring]
  exact ⟨⟨hrow.within, hcolumn.within⟩, Nat.max_le.2 ⟨hik, hjk⟩, rfl⟩

/-- A place at offsets that occur is drawn. -/
theorem exists_ringStroke (isDark : Nat → Bool) (hrows : Around n k centre.1 rows)
    (hcolumns : Around n k centre.2 columns)
    (hi : (p.1 : Int) - (Draft.placeOf n centre).1 ∈ rows)
    (hj : (p.2 : Int) - (Draft.placeOf n centre).2 ∈ columns) :
    ∃ s ∈ ringStrokes isDark centre rows columns, Draft.placeOf n s.1 = p := by
  refine ⟨_, mem_ringStrokes.2 ⟨_, hi, _, hj, rfl⟩, ?_⟩
  have hrow := (hrows _ hi).1.toNat_emod
  have hcolumn := (hcolumns _ hj).1.toNat_emod
  refine Prod.ext ?_ ?_ <;> unfold Draft.placeOf at * <;> dsimp only at * <;> omega

/-! ### Finders -/

/-- A finder reaches one further on its inner side, where the separator lies. -/
theorem mem_finderOffsets (hx : x = 3 ∨ x = -4) :
    i ∈ finderOffsets x ↔ if 0 < x then -3 ≤ i ∧ i ≤ 4 else -4 ≤ i ∧ i ≤ 3 := by
  rcases hx with rfl | rfl <;> simp [finderOffsets] <;> omega

/-- The offsets of a finder keep within the edges and within the separator. -/
theorem around_finderOffsets (hn : 21 ≤ n) (hx : x = 3 ∨ x = -4) :
    Around n 4 x (finderOffsets x) := by
  intro i hi
  rw [mem_finderOffsets hx] at hi
  unfold Beside
  rcases hx with rfl | rfl <;> simp at hi <;> omega

/-- Near a finder's centre, all offsets within the edges occur. -/
theorem sub_mem_finderOffsets (hn : 21 ≤ n) (hx : x = 3 ∨ x = -4) {a : Nat} (ha : a < n)
    (hgap : FunctionPattern.gap a (x % n).toNat ≤ 4) :
    (a : Int) - (x % n).toNat ∈ finderOffsets x := by
  have hplace := Draft.toNat_emod (n := n) (x := x) (by omega)
  rw [gap_le_iff] at hgap
  rw [mem_finderOffsets hx]
  split <;> omega

/-- Finders stand three from the near edges, or as far from the other ones. -/
theorem mem_signedFinderCentres (h : centre ∈ signedFinderCentres) :
    (centre.1 = 3 ∨ centre.1 = -4) ∧ (centre.2 = 3 ∨ centre.2 = -4) := by
  revert centre
  decide

/-- In any symbol these coordinates name the centres of the finders. -/
theorem map_placeOf_signedFinderCentres (hn : 21 ≤ n) :
    signedFinderCentres.map (Draft.placeOf n) = finderCentres n := by
  have hnear : ((3 : Int) % n).toNat = 3 := by
    have := Draft.toNat_emod (n := n) (x := 3) (by omega)
    omega
  have hfar : ((-4 : Int) % n).toNat = n - 4 := Draft.toNat_neg_emod (k := 4) (by decide) (by omega)
  simp only [signedFinderCentres, finderCentres, List.map_cons, List.map_nil, Draft.placeOf, hnear, hfar]

end FunctionPattern

/-! ### Each pass follows the version -/

/-- Strokes within the edges that have the colours of a version. -/
def Follow (v : Version) (strokes : List ((Int × Int) × Colour)) : Prop :=
  ∀ s ∈ strokes, Draft.Within v.width s.1 ∧ functionColour? v (Draft.placeOf v.width s.1) = some s.2

namespace FunctionPattern

variable {v : Version} {p : Nat × Nat}

/-- **Finder strokes have the colours of the version.** -/
theorem follow_finderStrokes (v : Version) : Follow v finderStrokes := by
  intro s hs
  obtain ⟨x, hx, hs⟩ := List.mem_flatMap.1 hs
  have hw := v.width_bounds.1
  obtain ⟨hrow, hcolumn⟩ := mem_signedFinderCentres hx
  obtain ⟨hwithin, hnear, hcolour⟩ :=
    ringStrokes_follow (around_finderOffsets hw hrow) (around_finderOffsets hw hcolumn) hs
  have hcentre : Draft.placeOf v.width x ∈ finderCentres v.width := by
    rw [← map_placeOf_signedFinderCentres hw]
    exact List.mem_map_of_mem hx
  exact ⟨hwithin, hcolour ▸ functionColour?_finder hcentre (Draft.placeOf_lt hwithin) hnear⟩

/-- **Timing strokes have the colours of the version**, also where alignment patterns lie across. -/
theorem follow_timingStrokes (v : Version) : Follow v (timingStrokes v.width) := by
  intro s hs
  obtain ⟨i, hi, hs⟩ := List.mem_flatMap.1 hs
  have hw := v.width_bounds.1
  rw [List.mem_range'_1] at hi
  obtain ⟨hrow, hcolumn⟩ := functionColour?_timing (v := v) (i := i) (by omega) (by omega)
  have hplace : Draft.placeOf v.width (6, i) = (6, i) := Draft.placeOf_natCast (p := (6, i)) (by omega)
  have hplace' : Draft.placeOf v.width (i, 6) = (i, 6) := Draft.placeOf_natCast (p := (i, 6)) (by omega)
  rcases List.mem_pair.1 hs with rfl | rfl
  · exact ⟨⟨by dsimp only; omega, by dsimp only; omega⟩, hplace ▸ hrow⟩
  · exact ⟨⟨by dsimp only; omega, by dsimp only; omega⟩, hplace' ▸ hcolumn⟩

/-- Alignment strokes are those around the centres that no finder occupies. -/
theorem mem_alignmentStrokes {s : (Int × Int) × Colour} :
    s ∈ alignmentStrokes v ↔
      ∃ q ∈ alignmentCentres v,
        s ∈ ringStrokes (fun ring => ring ≠ 1) (q.1, q.2) alignmentOffsets alignmentOffsets := by
  simp only [alignmentStrokes, alignmentCentres, List.mem_flatMap, List.mem_filter, List.mem_map]
  constructor
  · rintro ⟨r, hr, c, hc, hs⟩
    split at hs
    · cases hs
    · rename_i hcorner
      exact ⟨(r, c), ⟨⟨r, hr, c, hc, rfl⟩, by rw [Bool.eq_false_of_not_eq_true hcorner]; rfl⟩, hs⟩
  · rintro ⟨q, ⟨⟨r, hr, c, hc, rfl⟩, hcorner⟩, hs⟩
    refine ⟨r, hr, c, hc, ?_⟩
    rw [if_neg (by simpa using hcorner)]
    exact hs

/-- Alignment patterns reach two modules in each direction. -/
theorem mem_alignmentOffsets {i : Int} : i ∈ alignmentOffsets ↔ -2 ≤ i ∧ i ≤ 2 := by
  simp [alignmentOffsets]
  omega

/-- The offsets of an alignment pattern keep within the edges, and its centre is where it is. -/
theorem around_alignmentOffsets {q : Nat × Nat} (hq : q ∈ alignmentCentres v) :
    Around v.width 2 q.1 alignmentOffsets ∧ Around v.width 2 q.2 alignmentOffsets ∧
      Draft.placeOf v.width (q.1, q.2) = q := by
  have hbounds := centre_bounds hq
  refine ⟨fun i hi => ?_, fun i hi => ?_, Draft.placeOf_natCast (by omega)⟩ <;>
    rw [mem_alignmentOffsets] at hi <;> unfold Beside <;> omega

/-- **Alignment strokes have the colours of the version.** -/
theorem follow_alignmentStrokes (v : Version) : Follow v (alignmentStrokes v) := by
  intro s hs
  obtain ⟨q, hq, hs⟩ := mem_alignmentStrokes.1 hs
  obtain ⟨hrows, hcolumns, hplace⟩ := around_alignmentOffsets hq
  obtain ⟨hwithin, hnear, hcolour⟩ := ringStrokes_follow hrows hcolumns hs
  rw [hplace] at hnear hcolour
  exact ⟨hwithin, hcolour ▸ functionColour?_alignment hq hnear⟩

/-! ### No place is missed -/

/-- Every place of a finder is met by a finder stroke. -/
theorem exists_finderStroke (hin : p.1 < v.width ∧ p.2 < v.width) (h : (finder? v.width p).isSome) :
    ∃ s ∈ finderStrokes, Draft.placeOf v.width s.1 = p := by
  have hw := v.width_bounds.1
  obtain ⟨centre, hcentre, hnear⟩ := isSome_finder?.1 h
  rw [← map_placeOf_signedFinderCentres hw] at hcentre
  obtain ⟨x, hx, rfl⟩ := List.mem_map.1 hcentre
  obtain ⟨hrow, hcolumn⟩ := mem_signedFinderCentres hx
  obtain ⟨hgap, hgap'⟩ := Nat.max_le.1 hnear
  obtain ⟨s, hs, hplace⟩ := exists_ringStroke (fun ring => ring ≠ 2 ∧ ring ≠ 4)
    (around_finderOffsets hw hrow) (around_finderOffsets hw hcolumn)
    (sub_mem_finderOffsets hw hrow hin.1 hgap) (sub_mem_finderOffsets hw hcolumn hin.2 hgap')
  exact ⟨s, List.mem_flatMap.2 ⟨x, hx, hs⟩, hplace⟩

/-- Every place of the timing lines is met by a timing stroke. -/
theorem exists_timingStroke (h : (timing? v.width p).isSome) :
    ∃ s ∈ timingStrokes v.width, Draft.placeOf v.width s.1 = p := by
  obtain ⟨r, c⟩ := p
  have hplace : Draft.placeOf v.width (r, c) = (r, c) :=
    Draft.placeOf_natCast (p := (r, c)) (by rw [isSome_timing?] at h; omega)
  rcases isSome_timing?.1 h with ⟨hline, hlow, hhigh⟩ | ⟨hline, hlow, hhigh⟩
  · obtain rfl : r = 6 := hline
    have hmem : c ∈ List.range' 8 (v.width - 16) := List.mem_range'_1.2 (by omega)
    exact ⟨_, List.mem_flatMap.2 ⟨c, hmem, List.mem_cons_self⟩, hplace⟩
  · obtain rfl : c = 6 := hline
    have hmem : r ∈ List.range' 8 (v.width - 16) := List.mem_range'_1.2 (by omega)
    exact ⟨_, List.mem_flatMap.2 ⟨r, hmem, List.mem_cons_of_mem _ List.mem_cons_self⟩, hplace⟩

/-- Every place of an alignment pattern is met by a stroke of the last pass. -/
theorem exists_alignmentStroke (h : (alignment? v p).isSome) :
    ∃ s ∈ alignmentStrokes v, Draft.placeOf v.width s.1 = p := by
  obtain ⟨q, hq, hnear⟩ := isSome_alignment?.1 h
  obtain ⟨hrows, hcolumns, hcentre⟩ := around_alignmentOffsets hq
  have hclose := kingDistance_le_iff.1 hnear
  obtain ⟨s, hs, hplace⟩ := exists_ringStroke (p := p) (fun ring => ring ≠ 1) hrows hcolumns
    (by rw [hcentre, mem_alignmentOffsets]; omega) (by rw [hcentre, mem_alignmentOffsets]; omega)
  exact ⟨s, mem_alignmentStrokes.2 ⟨q, hq, hs⟩, hplace⟩

end FunctionPattern

/-! ### Passes and masks -/

namespace Draft

variable {d : Draft} {p : Nat × Nat}

/-- A pass that follows the version succeeds. -/
theorem strokeAll_of_follow {role : Colour → Cell} {strokes : List ((Int × Int) × Colour)}
    (h : Follow d.version strokes) :
    d.strokeAll role strokes = .ok (d.withCells role (strokePlaces d.width strokes)) :=
  strokeAll_eq role fun s hs => (h s hs).1

/-- All places with their colours, pass after pass. -/
def passPlaces (v : Version) : List ((Nat × Nat) × Colour) :=
  strokePlaces v.width (finderStrokes ++ timingStrokes v.width ++ alignmentStrokes v)

/-- Each place has the colour of the version. -/
theorem functionColour?_of_mem_passPlaces {v : Version} {e : (Nat × Nat) × Colour}
    (he : e ∈ passPlaces v) : functionColour? v e.1 = some e.2 := by
  obtain ⟨s, hs, rfl⟩ := List.mem_map.1 he
  simp only [List.mem_append] at hs
  rcases hs with (hs | hs) | hs
  · exact (follow_finderStrokes v s hs).2
  · exact (follow_timingStrokes v s hs).2
  · exact (follow_alignmentStrokes v s hs).2

/-- Each place with a colour is among them. -/
theorem mem_passPlaces {v : Version} (hr : p.1 < v.width) (hc : p.2 < v.width)
    (h : (functionColour? v p).isSome) : p ∈ (passPlaces v).map Prod.fst := by
  have hstroke : ∃ s ∈ finderStrokes ++ timingStrokes v.width ++ alignmentStrokes v,
      placeOf v.width s.1 = p := by
    simp only [List.mem_append]
    rcases isSome_functionColour?.1 h with h | h | h
    · obtain ⟨s, hs, hplace⟩ := exists_alignmentStroke h
      exact ⟨s, .inr hs, hplace⟩
    · obtain ⟨s, hs, hplace⟩ := exists_timingStroke h
      exact ⟨s, .inl (.inr hs), hplace⟩
    · obtain ⟨s, hs, hplace⟩ := exists_finderStroke ⟨hr, hc⟩ h
      exact ⟨s, .inl (.inl hs), hplace⟩
  obtain ⟨s, hs, hplace⟩ := hstroke
  exact List.mem_map.2 ⟨_, List.mem_map.2 ⟨s, hs, rfl⟩, hplace⟩

/-- A place without a function pattern is left as it is. -/
theorem get?_drawFunctionPatterns_of_none (h : functionColour? d.version p = none) :
    d.drawFunctionPatterns.grid.get? p = d.grid.get? p := by
  rw [get?_drawFunctionPatterns, h]
  exact Option.map_id'

/-- A place with one shows its colour, whatever was there. -/
theorem get?_drawFunctionPatterns_of_some {k : Colour} (h : functionColour? d.version p = some k) :
    d.drawFunctionPatterns.grid.get? p = (d.grid.get? p).map fun _ => .function k := by
  rw [get?_drawFunctionPatterns, h]

/-- The places of the passes, each in its colour, are the function patterns. -/
theorem withCells_passPlaces (d : Draft) :
    d.withCells .function (passPlaces d.version) = d.drawFunctionPatterns := by
  refine congrArg (Draft.mk d.version d.level d.mask) (Grid.ext_get? fun p => ?_)
  change _ = d.drawFunctionPatterns.grid.get? p
  rw [Grid.get?_setAll_of_colouring Cell.function (fun e he => functionColour?_of_mem_passPlaces he)
    fun p hr hc h => mem_passPlaces hr hc h]
  cases h : functionColour? d.version p with
  | none => rw [get?_drawFunctionPatterns_of_none h]; exact Option.map_id'
  | some k => rw [get?_drawFunctionPatterns_of_some h]; rfl

/-- **The passes draw the function patterns**, and no stroke of them lies beyond the edges. -/
theorem drawPasses_eq (d : Draft) : d.drawPasses = .ok d.drawFunctionPatterns := by
  have hplaces : d.drawFunctionPatterns =
      ((d.withCells .function (strokePlaces d.width finderStrokes)).withCells .function
        (strokePlaces d.width (timingStrokes d.width))).withCells .function
          (strokePlaces d.width (alignmentStrokes d.version)) := by
    rw [← withCells_passPlaces, ← withCells_append, ← withCells_append, passPlaces, strokePlaces_append,
      strokePlaces_append]
    rfl
  rw [drawPasses, strokeAll_of_follow (follow_finderStrokes _), ok_bind, width,
    strokeAll_of_follow (follow_timingStrokes _), ok_bind, strokeAll_of_follow (follow_alignmentStrokes _),
    hplaces]
  simp only [withCells_version, withCells_width]
  rfl

/-- What a draft shows after its function patterns are drawn, in terms of the draft before. -/
structure Patterned (d d' : Draft) : Prop where
  version_eq : d'.version = d.version
  level_eq : d'.level = d.level
  mask_eq : d'.mask = d.mask
  /-- The version alone decides which cells are drawn, and in which colours. -/
  pattern : ∀ p k, p.1 < d.version.width → p.2 < d.version.width → functionColour? d.version p = some k →
    d'.grid.get? p = some (.function k)
  /-- All other cells are as they were. -/
  others : ∀ p, functionColour? d.version p = none → d'.grid.get? p = d.grid.get? p

/-- **What function patterns do to any draft.** -/
theorem patterned_drawFunctionPatterns (d : Draft) : Patterned d d.drawFunctionPatterns where
  version_eq := rfl
  level_eq := rfl
  mask_eq := rfl
  pattern p k hr hc hk := by
    rw [get?_drawFunctionPatterns_of_some hk, Grid.get?_eq_some hr hc]
    rfl
  others p h := get?_drawFunctionPatterns_of_none h

/-- Drawn once more, function patterns are the same. -/
theorem drawFunctionPatterns_drawFunctionPatterns (d : Draft) :
    d.drawFunctionPatterns.drawFunctionPatterns = d.drawFunctionPatterns := by
  refine congrArg (Draft.mk d.version d.level d.mask) (Grid.ext_get? fun p => ?_)
  change d.drawFunctionPatterns.drawFunctionPatterns.grid.get? p = d.drawFunctionPatterns.grid.get? p
  cases h : functionColour? d.version p with
  | none => exact get?_drawFunctionPatterns_of_none h
  | some k =>
    have honce := get?_drawFunctionPatterns_of_some h
    rw [get?_drawFunctionPatterns_of_some (d := d.drawFunctionPatterns) h, honce, Option.map_map]
    rfl

/-- **Function patterns come before or after a mask**: no mask turns a function cell round, and
the format information lies clear of them. -/
theorem drawFunctionPatterns_applyMask (d : Draft) (m : Mask) :
    (d.applyMask m).drawFunctionPatterns = d.drawFunctionPatterns.applyMask m := by
  refine congrArg (Draft.mk d.version d.level (some m)) (Grid.ext_get? fun p => ?_)
  change (d.applyMask m).drawFunctionPatterns.grid.get? p = (d.drawFunctionPatterns.applyMask m).grid.get? p
  by_cases hformat : p ∈ formatPlaces d.version.width
  · obtain ⟨k, hk⟩ := (colours_format d.version (formatInfo d.level m)).exists_colour hformat
    have hnone : functionColour? d.version p = none := functionColour?_eq_none (.inl hformat)
    rw [get?_drawFunctionPatterns_of_none (d := d.applyMask m) hnone, get?_applyMask_of_mem hk,
      get?_applyMask_of_mem (d := d.drawFunctionPatterns) hk, get?_drawFunctionPatterns_of_none hnone]
  · have hmasked := get?_applyMask_of_notMem (m := m) hformat
    have hmasked' := get?_applyMask_of_notMem (d := d.drawFunctionPatterns) (m := m) hformat
    rw [hmasked']
    cases h : functionColour? d.version p with
    | none =>
      rw [get?_drawFunctionPatterns_of_none (d := d.applyMask m) h, get?_drawFunctionPatterns_of_none h,
        hmasked]
    | some k =>
      rw [get?_drawFunctionPatterns_of_some (d := d.applyMask m) h, get?_drawFunctionPatterns_of_some h,
        hmasked, Option.map_map, Option.map_map]
      rfl

/-- **Function patterns are independent of what a draft shows.**  The passes never fail.  They
draw cells that the version alone decides, and leave all others, the mask too, as they were.
Drawing them again changes nothing, and a mask may be applied before or after, because they
keep clear of the format information and the dark module. -/
theorem functionPatterns_independent (d : Draft) :
    d.drawPasses = .ok d.drawFunctionPatterns ∧
    Patterned d d.drawFunctionPatterns ∧
    d.drawFunctionPatterns.drawFunctionPatterns = d.drawFunctionPatterns ∧
    (∀ m, (d.applyMask m).drawFunctionPatterns = d.drawFunctionPatterns.applyMask m) ∧
    ∀ p, (functionColour? d.version p).isSome → p ∉ formatPlaces d.version.width := by
  refine ⟨drawPasses_eq d, patterned_drawFunctionPatterns d, drawFunctionPatterns_drawFunctionPatterns d,
    drawFunctionPatterns_applyMask d, fun p hp hformat => ?_⟩
  rw [functionColour?_eq_none (.inl hformat)] at hp
  cases hp

end Draft
end QRCode
