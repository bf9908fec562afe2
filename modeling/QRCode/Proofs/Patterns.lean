/-
# The fixed patterns of a symbol

What `QRBuilder::build` draws beside the data.

Outside the data region a symbol shows patterns that no payload and no mask alters.
Alignment patterns keep clear of the finders, and where they lie across a timing line
they repeat the timing pattern, because all their positions are even
(`FunctionPattern.functionColour?_timing`).  So every pattern is seen whole, whatever it
is drawn over (`Symbol.FixedPatterns`), and together the patterns are all that the data
region leaves (`mem_dataPlaces_iff_not_fixed`).  The version alone gives them their
colours (`exists_fixed_colour`), but for the format information, which also tells the
level and the mask (`get?_drawnSymbol_congr`).
-/

import QRCode.Proofs.Building
import QRCode.Proofs.Scoring

namespace QRCode

open FunctionPattern

namespace FunctionPattern

variable {v : Version} {p : Nat × Nat}

/-! ### Alignment patterns -/

/-- The corners at which finders stand in place of alignment patterns. -/
def finderCorners (n : Nat) : List (Nat × Nat) := [(6, 6), (6, n - 7), (n - 7, 6)]

/-- Three of the four corners belong to finders. -/
theorem isFinderCorner_iff {n : Nat} (hn : 21 ≤ n) :
    isFinderCorner n p = true ↔ p ∈ finderCorners n := by
  obtain ⟨r, c⟩ := p
  simp only [isFinderCorner, finderCorners, Bool.and_eq_true, Bool.not_eq_true', decide_eq_true_eq,
    decide_eq_false_iff_not, List.mem_cons, Prod.mk.injEq, List.not_mem_nil, or_false]
  omega

/-- Alignment patterns stand at all pairs of positions but those corners. -/
theorem mem_alignmentCentres {r c : Nat} :
    (r, c) ∈ alignmentCentres v ↔
      r ∈ v.alignment ∧ c ∈ v.alignment ∧ (r, c) ∉ finderCorners v.width := by
  rw [← isFinderCorner_iff v.width_bounds.1]
  simp [alignmentCentres, and_assoc]

/-- A place is close to one position at most. -/
theorem eq_of_near {x r r' : Nat} (hr : r ∈ v.alignment) (hr' : r' ∈ v.alignment) (h : gap x r ≤ 2)
    (h' : gap x r' ≤ 2) : r = r' := by
  have hfar : ∀ a b, a + 12 ≤ b → gap x a ≤ 2 → ¬gap x b ≤ 2 := by
    simp only [gap_le_iff]
    omega
  have hall := List.Pairwise.forall_of_forall_of_flip (R := fun a b => gap x a ≤ 2 → gap x b ≤ 2 → a = b)
    (fun _ _ _ _ => rfl) (v.alignment_apart.imp fun hab ha hb => absurd hb (hfar _ _ hab ha))
    (v.alignment_apart.imp fun hab hb ha => absurd hb (hfar _ _ hab ha))
  exact hall hr hr' h h'

/-- As positions lie far apart, a coordinate is near only one of them. -/
theorem find?_alignment {x r : Nat} (hr : r ∈ v.alignment) (h : gap x r ≤ 2) :
    v.alignment.find? (gap x · ≤ 2) = some r :=
  find?_eq_some_of_unique hr (decide_eq_true h) fun _ hr' h' => eq_of_near hr' hr (of_decide_eq_true h') h

/-- **The alignment pattern around a centre.** -/
theorem alignment?_eq_some {centre : Nat × Nat} (hcentre : centre ∈ alignmentCentres v)
    (hnear : kingDistance p centre ≤ 2) :
    alignment? v p = some (.ofBit (kingDistance p centre ≠ 1)) := by
  obtain ⟨r, c⟩ := centre
  obtain ⟨hr, hc, hcorner⟩ := mem_alignmentCentres.1 hcentre
  obtain ⟨hrow, hcolumn⟩ := Nat.max_le.1 hnear
  rw [← isFinderCorner_iff v.width_bounds.1, Bool.not_eq_true] at hcorner
  rw [alignment?, find?_alignment hr hrow, find?_alignment hc hcolumn]
  simp only [hcorner, Bool.false_eq_true, if_false]

/-- A place belongs to an alignment pattern when it is near a centre. -/
theorem isSome_alignment? :
    (alignment? v p).isSome ↔ ∃ centre ∈ alignmentCentres v, kingDistance p centre ≤ 2 := by
  constructor
  · intro h
    obtain ⟨k, hk⟩ := Option.isSome_iff_exists.1 h
    obtain ⟨centre, hcentre, hnear, -⟩ := exists_centre hk
    exact ⟨centre, hcentre, hnear⟩
  · rintro ⟨centre, hcentre, hnear⟩
    rw [alignment?_eq_some hcentre hnear]
    rfl

/-- **Alignment patterns are drawn over everything else.** -/
theorem functionColour?_alignment {centre : Nat × Nat} (hcentre : centre ∈ alignmentCentres v)
    (hnear : kingDistance p centre ≤ 2) :
    functionColour? v p = some (.ofBit (kingDistance p centre ≠ 1)) := by
  rw [functionColour?, alignment?_eq_some hcentre hnear]
  rfl

/-- An alignment pattern, row by row. -/
example :
    ((List.range 5).map fun i => (List.range 5).map fun j => decide (kingDistance (i, j) (2, 2) ≠ 1)) =
      ["#####",
       "#...#",
       "#.#.#",
       "#...#",
       "#####"].map fun row => row.toList.map fun c => decide (c = '#') := by decide

/-! ### Timing patterns -/

/-- All positions are even, so alignment patterns agree with the timing lines. -/
theorem alignment_even (v : Version) : ∀ x ∈ v.alignment, x % 2 = 0 := by
  revert v; decide

/-- Across a timing line an alignment pattern repeats the timing pattern. -/
theorem alignment?_timing {i : Nat} {k : Colour}
    (h : alignment? v (6, i) = some k ∨ alignment? v (i, 6) = some k) : k = .ofBit (i % 2 = 0) := by
  have hodd : ∀ x ∈ v.alignment, gap i x ≤ 2 → (gap i x ≠ 1 ↔ i % 2 = 0) := by
    intro x hx
    have heven := alignment_even v x hx
    unfold gap
    omega
  have hline : ∀ x ∈ v.alignment, gap 6 x ≤ 2 → x = 6 := by
    intro x hx hnear
    have hpos := (alignment_positions v x hx).1
    rw [gap_le_iff] at hnear
    omega
  rcases h with h | h
  · obtain ⟨⟨r, c⟩, hcentre, hnear, rfl⟩ := exists_centre h
    obtain ⟨hr, hc, -⟩ := mem_alignmentCentres.1 hcentre
    obtain ⟨hrow, hcolumn⟩ := Nat.max_le.1 hnear
    obtain rfl := hline r hr hrow
    have hdist : kingDistance (6, i) (6, c) = gap i c := Nat.max_eq_right (Nat.zero_le _)
    rw [hdist, decide_eq_decide.2 (hodd c hc hcolumn)]
  · obtain ⟨⟨r, c⟩, hcentre, hnear, rfl⟩ := exists_centre h
    obtain ⟨hr, hc, -⟩ := mem_alignmentCentres.1 hcentre
    obtain ⟨hrow, hcolumn⟩ := Nat.max_le.1 hnear
    obtain rfl := hline c hc hcolumn
    have hdist : kingDistance (i, 6) (r, 6) = gap i r := Nat.max_eq_left (Nat.zero_le _)
    rw [hdist, decide_eq_decide.2 (hodd r hr hrow)]

/-- **The timing pattern**, also where alignment patterns lie across it. -/
theorem functionColour?_timing {i : Nat} (hi : 8 ≤ i) (hi' : i + 8 < v.width) :
    functionColour? v (6, i) = some (.ofBit (i % 2 = 0)) ∧
      functionColour? v (i, 6) = some (.ofBit (i % 2 = 0)) := by
  have hrow : timing? v.width (6, i) = some (.ofBit (i % 2 = 0)) := if_pos ⟨rfl, hi, hi'⟩
  have hcolumn : timing? v.width (i, 6) = some (.ofBit (i % 2 = 0)) := by
    rw [timing?, if_neg (by omega), if_pos ⟨rfl, hi, hi'⟩]
  unfold functionColour?
  rw [hrow, hcolumn]
  constructor
  · cases h : alignment? v (6, i) with
    | some k => rw [alignment?_timing (.inl h)]; rfl
    | none => rfl
  · cases h : alignment? v (i, 6) with
    | some k => rw [alignment?_timing (.inr h)]; rfl
    | none => rfl

/-! ### Finder patterns -/

/-- Near a finder the distance from its centre decides the colour. -/
theorem finder?_eq_some {n : Nat} (hn : 21 ≤ n) {centre : Nat × Nat} (hcentre : centre ∈ finderCentres n)
    (hnear : kingDistance p centre ≤ 4) :
    finder? n p = some (.ofBit (kingDistance p centre ≠ 2 ∧ kingDistance p centre ≠ 4)) := by
  have hunique : ∀ q ∈ finderCentres n, decide (kingDistance p q ≤ 4) = true → q = centre := by
    intro q hq hclose
    have hclose := kingDistance_le_iff.1 (of_decide_eq_true hclose)
    have hnear := kingDistance_le_iff.1 hnear
    simp only [finderCentres, List.mem_cons, List.not_mem_nil, or_false] at hcentre hq
    rcases hcentre with rfl | rfl | rfl <;> rcases hq with rfl | rfl | rfl <;>
      first | rfl | (dsimp only at hclose hnear; omega)
  rw [finder?, find?_eq_some_of_unique hcentre (decide_eq_true hnear) hunique]

/-- **Finder patterns** and their separators are drawn over by nothing. -/
theorem functionColour?_finder {centre : Nat × Nat} (hcentre : centre ∈ finderCentres v.width)
    (hin : p.1 < v.width ∧ p.2 < v.width) (hnear : kingDistance p centre ≤ 4) :
    functionColour? v p = some (.ofBit (kingDistance p centre ≠ 2 ∧ kingDistance p centre ≠ 4)) := by
  have hw := v.width_bounds.1
  have hfinder := isSome_finder?_iff_bounds.1 (isSome_finder?.2 ⟨centre, hcentre, hnear⟩)
  have halignment : alignment? v p = none := by
    rw [← Option.not_isSome_iff_eq_none, isSome_alignment?]
    rintro ⟨⟨r, c⟩, hmem, hclose⟩
    have hbounds := centre_bounds hmem
    rw [kingDistance_le_iff] at hclose
    omega
  have htiming : timing? v.width p = none := by
    rw [← Option.not_isSome_iff_eq_none, isSome_timing?]
    omega
  rw [functionColour?, halignment, htiming, finder?_eq_some hw hcentre hnear]
  rfl

/-- A finder pattern with its separator, row by row. -/
example :
    ((List.range 9).map fun i => (List.range 9).map fun j =>
        decide (kingDistance (i, j) (4, 4) ≠ 2 ∧ kingDistance (i, j) (4, 4) ≠ 4)) =
      [".........",
       ".#######.",
       ".#.....#.",
       ".#.###.#.",
       ".#.###.#.",
       ".#.###.#.",
       ".#.....#.",
       ".#######.",
       "........."].map fun row => row.toList.map fun c => decide (c = '#') := by decide

end FunctionPattern

variable {v : Version} {level : Level} {bits : List Bool} {m : Mask} {p : Nat × Nat}

/-! ### What the data region leaves -/

/-- The places of the fixed patterns of a version. -/
inductive Version.Fixed (v : Version) (p : Nat × Nat) : Prop where
  | finder {centre : Nat × Nat} (hcentre : centre ∈ finderCentres v.width)
      (hnear : kingDistance p centre ≤ 4)
  | timingRow (hrow : p.1 = 6) (hleft : 8 ≤ p.2) (hright : p.2 + 8 < v.width)
  | timingColumn (hcolumn : p.2 = 6) (hup : 8 ≤ p.1) (hdown : p.1 + 8 < v.width)
  | alignment {r c : Nat} (hr : r ∈ v.alignment) (hc : c ∈ v.alignment)
      (hcorner : (r, c) ∉ finderCorners v.width) (hnear : kingDistance p (r, c) ≤ 2)
  | format (h : p ∈ formatPlaces v.width)
  | version (h : p ∈ versionPlaces v)

/-- Exactly the places of fixed patterns are reserved. -/
theorem isReserved_iff_fixed : isReserved v p = true ↔ v.Fixed p := by
  rw [isReserved_eq_true, isSome_functionColour?, isSome_alignment?, isSome_timing?, isSome_finder?]
  constructor
  · rintro (hfunction | hformat | hversion)
    · rcases hfunction with ⟨⟨r, c⟩, hcentre, hnear⟩ | htiming | ⟨centre, hcentre, hnear⟩
      · obtain ⟨hr, hc, hcorner⟩ := mem_alignmentCentres.1 hcentre
        exact .alignment hr hc hcorner hnear
      · rcases htiming with ⟨hrow, hleft, hright⟩ | ⟨hcolumn, hup, hdown⟩
        · exact .timingRow hrow hleft hright
        · exact .timingColumn hcolumn hup hdown
      · exact .finder hcentre hnear
    · exact .format hformat
    · exact .version hversion
  · rintro (⟨hcentre, hnear⟩ | ⟨hrow, hleft, hright⟩ | ⟨hcolumn, hup, hdown⟩ | ⟨hr, hc, hcorner, hnear⟩ |
      hformat | hversion)
    · exact .inl (.inr (.inr ⟨_, hcentre, hnear⟩))
    · exact .inl (.inr (.inl (.inl ⟨hrow, hleft, hright⟩)))
    · exact .inl (.inr (.inl (.inr ⟨hcolumn, hup, hdown⟩)))
    · exact .inl (.inl ⟨_, mem_alignmentCentres.2 ⟨hr, hc, hcorner⟩, hnear⟩)
    · exact .inr (.inl hformat)
    · exact .inr (.inr hversion)

/-- **The data region is what the fixed patterns leave.** -/
theorem mem_dataPlaces_iff_not_fixed :
    p ∈ dataPlaces v ↔ p.1 < v.width ∧ p.2 < v.width ∧ ¬v.Fixed p := by
  rw [mem_dataPlaces_iff, ← isReserved_iff_fixed, Bool.not_eq_true]

/-- Outside the data region and the format information, the version alone gives a place
its colour. -/
theorem exists_fixed_colour (hdata : p ∉ dataPlaces v) (hformat : p ∉ formatPlaces v.width) :
    ∃ colour, ∀ level bits m, (drawnSymbol v level bits m).grid.get? p = colour := by
  by_cases hin : p.1 < v.width ∧ p.2 < v.width
  · have hres : isReserved v p = true := by
      by_contra hfree
      exact hdata (mem_dataPlaces_iff.2 ⟨hin.1, hin.2, Bool.eq_false_iff.2 hfree⟩)
    rcases isReserved_eq_true.1 hres with hfunction | hp | hversion
    · obtain ⟨k, hk⟩ := Option.isSome_iff_exists.1 hfunction
      exact ⟨some k, fun level bits m => colour_function hin hk⟩
    · exact absurd hp hformat
    · obtain ⟨k, hmem⟩ := (colours_version v).exists_colour hversion
      exact ⟨some k, fun level bits m => colour_version hmem⟩
  · exact ⟨none, fun level bits m => Grid.get?_eq_none hin⟩

/-- Outside the data region, the version, the level and the mask give a place its
colour. -/
theorem get?_drawnSymbol_congr (hdata : p ∉ dataPlaces v) (bits bits' : List Bool) :
    (drawnSymbol v level bits m).grid.get? p = (drawnSymbol v level bits' m).grid.get? p := by
  by_cases hformat : p ∈ formatPlaces v.width
  · obtain ⟨k, hmem⟩ := (colours_format v (formatInfo level m)).exists_colour hformat
    rw [colour_format hmem, colour_format hmem]
  · obtain ⟨colour, hcolour⟩ := exists_fixed_colour hdata hformat
    rw [hcolour, hcolour]

/-! ### Version information -/

/-- The two blocks of the version information in a symbol of width `n`. -/
def versionBlocks (n : Nat) : List (List (Nat × Nat)) := [versionLowerLeft n, versionUpperRight n]

/-- Each block has a place for every bit of the version information. -/
theorem length_of_mem_versionBlocks {n : Nat} {block : List (Nat × Nat)} (h : block ∈ versionBlocks n) :
    block.length = versionLength := by
  simp only [versionBlocks, List.mem_cons, List.not_mem_nil, or_false] at h
  rcases h with rfl | rfl <;> rfl

/-- Both blocks are drawn from the same eighteen bits. -/
theorem mem_versionColours_of_block (hinfo : v.hasInfo = true) {block : List (Nat × Nat)}
    (hblock : block ∈ versionBlocks v.width) {e : (Nat × Nat) × Bool}
    (he : e ∈ block.zip (bitsOf (versionInfo v) versionLength)) :
    (e.1, Colour.ofBit e.2) ∈ versionColours v := by
  have hmem := mem_zip_ofBit he
  have hlen : (versionLowerLeft v.width).length =
      ((bitsOf (versionInfo v) versionLength).map Colour.ofBit).length := by
    rw [List.length_map, BitString.length_bitsOf]
    rfl
  unfold versionColours versionPlaces
  rw [if_pos hinfo, List.zip_append hlen, List.mem_append]
  simp only [versionBlocks, List.mem_cons, List.not_mem_nil, or_false] at hblock
  rcases hblock with rfl | rfl
  · exact .inl hmem
  · exact .inr hmem

/-- Both blocks of a symbol show the version information. -/
theorem Reader.bitsAt?_versionBlock (hinfo : v.hasInfo = true) {block : List (Nat × Nat)}
    (hblock : block ∈ versionBlocks v.width) :
    bitsAt? (drawnSymbol v level bits m).grid block = some (bitsOf (versionInfo v) versionLength) := by
  refine mapM_eq_some_of_zip ?_ fun e he => ?_
  · rw [BitString.length_bitsOf]
    exact length_of_mem_versionBlocks hblock
  · rw [colour_version (mem_versionColours_of_block hinfo hblock he), Option.map_some, Colour.isDark_ofBit]

/-! ### All patterns -/

/-- The fixed patterns of a symbol. -/
structure Symbol.FixedPatterns (q : Symbol) : Prop where
  width_eq : q.width = 4 * q.version.number + 17
  size_eq : q.grid.toList.length = q.width * q.width
  /-- Three finders, with their light separators at distance four. -/
  finder : ∀ centre ∈ [(3, 3), (3, q.width - 4), (q.width - 4, 3)], ∀ p, p.1 < q.width → p.2 < q.width →
    kingDistance p centre ≤ 4 →
    q.grid.get? p = some (.ofBit (kingDistance p centre ≠ 2 ∧ kingDistance p centre ≠ 4))
  /-- Row 6 and column 6 between the finders, dark exactly on even indices. -/
  timing : ∀ i, 8 ≤ i → i + 8 < q.width →
    q.grid.get? (6, i) = some (.ofBit (i % 2 = 0)) ∧ q.grid.get? (i, 6) = some (.ofBit (i % 2 = 0))
  /-- Five modules square around every pair of table positions but three. -/
  alignment : ∀ r ∈ q.version.alignment, ∀ c ∈ q.version.alignment,
    (r, c) ∉ [(6, 6), (6, q.width - 7), (q.width - 7, 6)] → ∀ p, kingDistance p (r, c) ≤ 2 →
    q.grid.get? p = some (.ofBit (kingDistance p (r, c) ≠ 1))
  darkModule : q.grid.get? (4 * q.version.number + 9, 8) = some .dark
  /-- Both copies of the format information, highest bit first. -/
  format : ∀ copy ∈ [formatMain, formatSide q.width],
    Reader.bitsAt? q.grid copy = some (bitsOf (formatInfo q.level q.mask) 15)
  /-- Both copies of the version information, highest bit first. -/
  version : 7 ≤ q.version.number → ∀ block ∈ [versionLowerLeft q.width, versionUpperRight q.width],
    Reader.bitsAt? q.grid block = some (bitsOf (versionInfo q.version) 18)

/-- **Every drawn symbol has the fixed patterns**, whatever its bits, its level and its mask. -/
theorem fixedPatterns_drawnSymbol (v : Version) (level : Level) (bits : List Bool) (m : Mask) :
    (drawnSymbol v level bits m).FixedPatterns where
  width_eq := rfl
  size_eq := Grid.length_toList _
  finder centre hcentre p hr hc hnear :=
    colour_function ⟨hr, hc⟩ (functionColour?_finder hcentre ⟨hr, hc⟩ hnear)
  timing i hi hi' := by
    have hi' : i + 8 < v.width := hi'
    have hin : 6 < v.width ∧ i < v.width := by omega
    obtain ⟨hrow, hcolumn⟩ := functionColour?_timing hi hi'
    exact ⟨colour_function hin hrow, colour_function hin.symm hcolumn⟩
  alignment r hr c hc hcorner p hnear := by
    have hbounds := v.alignment_bounds r hr
    have hbounds' := v.alignment_bounds c hc
    have hclose := kingDistance_le_iff.1 hnear
    have hin : p.1 < v.width ∧ p.2 < v.width := by omega
    exact colour_function hin (functionColour?_alignment (mem_alignmentCentres.2 ⟨hr, hc, hcorner⟩) hnear)
  darkModule := by
    have hplace : darkPlace v.width = (4 * v.number + 9, 8) := rfl
    have hmem : (darkPlace v.width, Colour.dark) ∈ formatColours v.width (formatInfo level m) :=
      List.mem_append_right _ (List.mem_singleton_self _)
    exact colour_format (hplace ▸ hmem)
  format copy hcopy := Reader.bitsAt?_drawnSymbol hcopy
  version hseven block hblock := Reader.bitsAt?_versionBlock (decide_eq_true hseven) hblock

/-- **Every symbol shows the fixed patterns**, whatever it carries.  They are all of the
symbol but the data region, and two symbols of one version agree on them, save for the
format information where levels or masks differ. -/
theorem fixedPatterns_of_build {s : Settings} {q : Symbol} (h : s.build = .ok q) :
    q.FixedPatterns ∧
    (∀ p, p ∈ dataPlaces q.version ↔ p.1 < q.width ∧ p.2 < q.width ∧ ¬q.version.Fixed p) ∧
    ∀ (t : Settings) (q' : Symbol), t.build = .ok q' → q'.version = q.version →
      (∀ p, p ∉ dataPlaces q.version → p ∉ formatPlaces q.width → q'.grid.get? p = q.grid.get? p) ∧
      (q'.level = q.level → q'.mask = q.mask →
        ∀ p, p ∉ dataPlaces q.version → q'.grid.get? p = q.grid.get? p) := by
  obtain ⟨v, plan, m, -, rfl⟩ := Settings.exists_built h
  refine ⟨fixedPatterns_drawnSymbol .., fun p => mem_dataPlaces_iff_not_fixed, ?_⟩
  intro t q' ht hversion
  obtain ⟨w, plan', m', -, rfl⟩ := Settings.exists_built ht
  obtain rfl : w = v := hversion
  constructor
  · intro p hdata hformat
    obtain ⟨colour, hcolour⟩ := exists_fixed_colour hdata hformat
    exact (hcolour ..).trans (hcolour ..).symm
  · intro hlevels hmask p hdata
    have hlevel : t.level = s.level := hlevels
    obtain rfl : m' = m := hmask
    unfold Settings.symbol
    rw [hlevel]
    exact get?_drawnSymbol_congr hdata _ _

/-- The symbol of the letter `A` shows the fixed patterns, and that of the letter `B` has
them in the same colours when its mask is the same. -/
theorem fixedPatterns_of_build_letters :
    ∃ q q', Settings.build { payload := [0x41], mask := some ⟨3⟩ } = .ok q ∧
      Settings.build { payload := [0x42], mask := some ⟨3⟩ } = .ok q' ∧ q.FixedPatterns ∧
      ∀ p, p ∉ dataPlaces q.version → q'.grid.get? p = q.grid.get? p := by
  obtain ⟨plan, m, hbuild, hbuilt⟩ :=
    Settings.build_of_fits (s := { payload := [0x41], mask := some ⟨3⟩ }) (v := .ofIndex 0) rfl (by decide)
  obtain ⟨plan', m', hbuild', hbuilt'⟩ :=
    Settings.build_of_fits (s := { payload := [0x42], mask := some ⟨3⟩ }) (v := .ofIndex 0) rfl (by decide)
  obtain ⟨hpatterns, -, hagree⟩ := fixedPatterns_of_build hbuild
  have hmask : m' = m := (hbuilt'.mask _ rfl).trans (hbuilt.mask _ rfl).symm
  exact ⟨_, _, hbuild, hbuild', hpatterns, (hagree _ _ hbuild' rfl).2 rfl hmask⟩

end QRCode
