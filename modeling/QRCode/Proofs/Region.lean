/-
# The data region holds the codewords

The placement path visits every place outside column 6 exactly once (`mem_path`,
`nodup_path`), and column 6 belongs to function patterns altogether
(`functionColour?_timingColumn`).  So every place of a symbol is reserved or
visited.

The reserved places on the path are counted by covering them with boxes: finders,
the horizontal timing line, alignment patterns, format and version information.
Whatever the cover leaves is data, and that is enough for all codewords of the
version (`codewords_le_dataPlaces`).
-/

import QRCode.DataRegion
import QRCode.Version.Capacity
import Mathlib.Algebra.Ring.Nat
import Mathlib.Data.List.Basic
import Mathlib.Data.List.Perm.Subperm
import Mathlib.Data.List.Nodup

namespace QRCode

/-! ### The path -/

namespace Zigzag

variable {n sweep : Nat} {p : Nat × Nat}

/-- A sweep visits the rows of the symbol. -/
theorem mem_sweepRows {r : Nat} : r ∈ sweepRows n sweep ↔ r < n := by
  unfold sweepRows; split <;> simp

/-- It visits none of them twice. -/
theorem nodup_sweepRows : (sweepRows n sweep).Nodup := by
  unfold sweepRows
  split
  · exact List.nodup_reverse.2 List.nodup_range
  · exact List.nodup_range

/-- In each row a sweep visits two columns. -/
theorem mem_sweepPlaces :
    p ∈ sweepPlaces n sweep ↔
      p.1 < n ∧ (p.2 = rightColumn n sweep ∨ p.2 = rightColumn n sweep - 1) := by
  obtain ⟨r, c⟩ := p
  simp only [sweepPlaces, List.mem_flatMap, mem_sweepRows, List.mem_cons, List.not_mem_nil, or_false,
    Prod.mk.injEq]
  constructor
  · rintro ⟨r', hr, ⟨rfl, hc⟩ | ⟨rfl, hc⟩⟩
    · exact ⟨hr, .inl hc⟩
    · exact ⟨hr, .inr hc⟩
  · rintro ⟨hr, hc | hc⟩
    · exact ⟨r, hr, .inl ⟨rfl, hc⟩⟩
    · exact ⟨r, hr, .inr ⟨rfl, hc⟩⟩

/-- The two columns of a sweep lie inside, and on the same side of the timing
column. -/
theorem rightColumn_bounds (hn : n % 2 = 1) (h : sweep < n / 2) :
    0 < rightColumn n sweep ∧ rightColumn n sweep < n ∧ rightColumn n sweep ≠ timingColumn ∧
      rightColumn n sweep - 1 ≠ timingColumn := by
  unfold rightColumn timingColumn
  dsimp only
  split <;> omega

/-- Every sweep lies left of the sweeps before it. -/
theorem rightColumn_apart (hn : n % 2 = 1) {s t : Nat} (hst : s < t) (ht : t < n / 2) :
    rightColumn n t + 2 ≤ rightColumn n s := by
  unfold rightColumn timingColumn
  dsimp only
  split <;> split <;> omega

/-- **The path visits every place outside the timing column**, and no place in it. -/
theorem mem_path (hn : n % 2 = 1) (hw : 9 ≤ n) :
    p ∈ path n ↔ p.1 < n ∧ p.2 < n ∧ p.2 ≠ timingColumn := by
  simp only [path, List.mem_flatMap, List.mem_range, mem_sweepPlaces]
  constructor
  · rintro ⟨sweep, hs, hr, hc⟩
    obtain ⟨hpos, hlt, hne, hne'⟩ := rightColumn_bounds hn hs
    refine ⟨hr, ?_⟩
    rcases hc with hc | hc <;> omega
  · rintro ⟨hr, hc, hne⟩
    unfold timingColumn at hne
    by_cases hright : timingColumn < p.2
    · refine ⟨(n - 1 - p.2) / 2, by omega, hr, ?_⟩
      unfold rightColumn
      unfold timingColumn at *
      dsimp only
      split <;> omega
    · -- left of the timing line a sweep is one column further left
      refine ⟨(n - 2 - p.2) / 2, by unfold timingColumn at hright; omega, hr, ?_⟩
      unfold rightColumn
      unfold timingColumn at *
      dsimp only
      split <;> omega

/-- A sweep visits no place twice. -/
theorem nodup_sweepPlaces (hn : n % 2 = 1) (h : sweep < n / 2) : (sweepPlaces n sweep).Nodup := by
  have hpos := (rightColumn_bounds hn h).1
  refine List.nodup_flatMap.2 ⟨fun r _ => ?_, nodup_sweepRows.imp fun {r r'} hne q hq hq' => ?_⟩
  · simp only [List.nodup_cons, List.mem_singleton, Prod.mk.injEq, true_and, List.not_mem_nil,
      not_false_eq_true, List.nodup_nil, and_true]
    omega
  · simp only [List.mem_cons, List.not_mem_nil, or_false] at hq hq'
    have hr : q.1 = r := by rcases hq with rfl | rfl <;> rfl
    have hr' : q.1 = r' := by rcases hq' with rfl | rfl <;> rfl
    exact hne (hr.symm.trans hr')

/-- **The path visits no place twice.** -/
theorem nodup_path (hn : n % 2 = 1) : (path n).Nodup := by
  refine List.nodup_flatMap.2 ⟨fun s hs => nodup_sweepPlaces hn (List.mem_range.1 hs), ?_⟩
  refine List.Pairwise.imp_of_mem ?_ (List.pairwise_lt_range (n := n / 2))
  intro s t _ ht hst q hq hq'
  rw [List.mem_range] at ht
  have hapart := rightColumn_apart hn hst ht
  have hpos := (rightColumn_bounds hn ht).1
  rw [mem_sweepPlaces] at hq hq'
  omega

end Zigzag

namespace Version

/-- **The path visits every place outside the timing column.** -/
theorem mem_path {v : Version} {p : Nat × Nat} :
    p ∈ Zigzag.path v.width ↔ p.1 < v.width ∧ p.2 < v.width ∧ p.2 ≠ Zigzag.timingColumn :=
  Zigzag.mem_path v.width_odd (by have := v.width_bounds; omega)

/-- **The path visits no place twice.** -/
theorem nodup_path (v : Version) : (Zigzag.path v.width).Nodup := Zigzag.nodup_path v.width_odd

end Version

/-- No place of the data region is filled twice. -/
theorem nodup_dataPlaces (v : Version) : (dataPlaces v).Nodup := v.nodup_path.filter _

/-! ### Format and version information -/

/-- No place of the format information is drawn twice. -/
theorem nodup_formatPlaces {n : Nat} (h : 21 ≤ n) : (formatPlaces n).Nodup := by
  simp only [formatPlaces, formatMain, formatSide, darkPlace, List.cons_append, List.nil_append,
    List.nodup_cons, List.mem_cons, Prod.mk.injEq, List.not_mem_nil, List.nodup_nil, or_false,
    not_false_eq_true, and_true]
  omega

/-- Format information lies in row 8 and column 8, close to the corners, and leaves
the timing lines free. -/
theorem formatPlaces_bounds {n : Nat} (h : 21 ≤ n) :
    ∀ p ∈ formatPlaces n, p.1 < n ∧ p.2 < n ∧
      (p.1 = 8 ∧ p.2 ≠ 6 ∧ (p.2 ≤ 8 ∨ n ≤ p.2 + 8) ∨ p.2 = 8 ∧ p.1 ≠ 6 ∧ (p.1 ≤ 8 ∨ n ≤ p.1 + 8)) := by
  simp only [formatPlaces, formatMain, formatSide, darkPlace, List.cons_append, List.nil_append,
    List.forall_mem_cons, List.not_mem_nil, false_implies, implies_true, and_true, true_and]
  omega

/-- The lower left block lies above the finder, left of the timing column. -/
theorem mem_versionLowerLeft {n : Nat} {p : Nat × Nat} (h : p ∈ versionLowerLeft n) :
    p.1 ≤ n - 9 ∧ n ≤ p.1 + 11 ∧ p.2 ≤ 5 := by
  obtain ⟨k, -, rfl⟩ := List.mem_map.1 h
  dsimp only
  omega

/-- The upper right block lies left of the finder, above the timing row. -/
theorem mem_versionUpperRight {n : Nat} {p : Nat × Nat} (h : p ∈ versionUpperRight n) :
    p.2 ≤ n - 9 ∧ n ≤ p.2 + 11 ∧ p.1 ≤ 5 := by
  obtain ⟨k, -, rfl⟩ := List.mem_map.1 h
  dsimp only
  omega

/-- Version information lies beside two finders, in versions wide enough to keep it
away from the third. -/
theorem versionPlaces_bounds {v : Version} {p : Nat × Nat} (h : p ∈ versionPlaces v) :
    45 ≤ v.width ∧ (p.1 + 9 ≤ v.width ∧ v.width ≤ p.1 + 11 ∧ p.2 ≤ 5 ∨
      p.2 + 9 ≤ v.width ∧ v.width ≤ p.2 + 11 ∧ p.1 ≤ 5) := by
  unfold versionPlaces Version.hasInfo at h
  split at h
  · rename_i hinfo
    have hw : 45 ≤ v.width := by
      unfold Version.width; have := of_decide_eq_true hinfo; omega
    rcases List.mem_append.1 h with h | h
    · have := mem_versionLowerLeft h; omega
    · have := mem_versionUpperRight h; omega
  · cases h

/-- No place of the version information is drawn twice. -/
theorem nodup_versionPlaces (v : Version) : (versionPlaces v).Nodup := by
  unfold versionPlaces Version.hasInfo
  split
  · rename_i hinfo
    have hw : 45 ≤ v.width := by
      unfold Version.width; have := of_decide_eq_true hinfo; omega
    refine List.nodup_append.2 ⟨?_, ?_, fun p hp q hq => ?_⟩
    · refine List.Nodup.map_on (fun a ha b hb hab => ?_) List.nodup_range
      simp only [Prod.mk.injEq, List.mem_range, versionLength] at ha hb hab
      omega
    · refine List.Nodup.map_on (fun a ha b hb hab => ?_) List.nodup_range
      simp only [Prod.mk.injEq, List.mem_range, versionLength] at ha hb hab
      omega
    · have := mem_versionLowerLeft hp
      have := mem_versionUpperRight hq
      rintro rfl
      omega
  · exact List.nodup_nil

/-! ### Function patterns -/

namespace FunctionPattern

variable {v : Version} {p : Nat × Nat}

/-- A position of alignment patterns is the timing line, or far from it; and it is
the last one, or far from the far edge. -/
theorem alignment_positions (v : Version) :
    ∀ x ∈ v.alignment, (x = 6 ∨ 18 ≤ x) ∧ (x + 7 = v.width ∨ x + 19 ≤ v.width) := by
  revert v; decide

/-- Two numbers are close when each is within reach of the other. -/
theorem gap_le_iff {a b k : Nat} : gap a b ≤ k ↔ a ≤ b + k ∧ b ≤ a + k := by
  unfold gap
  omega

/-- A distance is bounded when both of its directions are. -/
theorem kingDistance_le_iff {q : Nat × Nat} {k : Nat} :
    kingDistance p q ≤ k ↔
      (p.1 ≤ q.1 + k ∧ q.1 ≤ p.1 + k) ∧ p.2 ≤ q.2 + k ∧ q.2 ≤ p.2 + k := by
  rw [kingDistance, Nat.max_le, gap_le_iff, gap_le_iff]

/-- A place belongs to a finder when it is near a centre. -/
theorem isSome_finder? {n : Nat} :
    (finder? n p).isSome ↔ ∃ centre ∈ finderCentres n, kingDistance p centre ≤ 4 := by
  have hsome : (finder? n p).isSome =
      ((finderCentres n).find? fun q => decide (kingDistance p q ≤ 4)).isSome := by
    unfold finder?; split <;> simp [*]
  rw [hsome, List.find?_isSome]
  simp only [decide_eq_true_eq]

/-- The three finders are squares in the corners. -/
theorem isSome_finder?_iff_bounds {n : Nat} :
    (finder? n p).isSome ↔
      p.1 ≤ 7 ∧ p.2 ≤ 7 ∨ p.1 ≤ 7 ∧ p.2 ≤ n - 4 + 4 ∧ n - 4 ≤ p.2 + 4 ∨
        p.1 ≤ n - 4 + 4 ∧ n - 4 ≤ p.1 + 4 ∧ p.2 ≤ 7 := by
  rw [isSome_finder?]
  simp only [finderCentres, List.mem_cons, List.not_mem_nil, or_false, exists_eq_or_imp, exists_eq_left,
    kingDistance_le_iff]
  omega

/-- The timing lines run between the finders. -/
theorem isSome_timing? {n : Nat} :
    (timing? n p).isSome ↔
      p.1 = 6 ∧ 8 ≤ p.2 ∧ p.2 + 8 < n ∨ p.2 = 6 ∧ 8 ≤ p.1 ∧ p.1 + 8 < n := by
  unfold timing?
  split
  · simp [*]
  · split <;> simp [*]

/-- An alignment pattern at a place has its centre close by. -/
theorem exists_centre {k : Colour} (h : alignment? v p = some k) :
    ∃ centre ∈ alignmentCentres v, kingDistance p centre ≤ 2 ∧ k = .ofBit (kingDistance p centre ≠ 1) := by
  unfold alignment? at h
  split at h
  · rename_i r c hr hc
    split at h
    · cases h
    · rename_i hcorner
      have hrow : gap p.1 r ≤ 2 := by simpa using List.find?_some hr
      have hcolumn : gap p.2 c ≤ 2 := by simpa using List.find?_some hc
      refine ⟨(r, c), ?_, Nat.max_le.2 ⟨hrow, hcolumn⟩, (Option.some.inj h).symm⟩
      simp only [alignmentCentres, List.mem_filter, List.mem_flatMap, List.mem_map]
      exact ⟨⟨r, List.mem_of_find?_eq_some hr, c, List.mem_of_find?_eq_some hc, rfl⟩,
        by simpa using hcorner⟩
  · cases h

/-- A centre lies on a line through the finders or far from it, and at no corner that
a finder occupies. -/
theorem centre_bounds {r c : Nat} (h : (r, c) ∈ alignmentCentres v) :
    ((r = 6 ∨ 18 ≤ r) ∧ (r + 7 = v.width ∨ r + 19 ≤ v.width)) ∧
      ((c = 6 ∨ 18 ≤ c) ∧ (c + 7 = v.width ∨ c + 19 ≤ v.width)) ∧
      ((r ≠ 6 ∧ r + 7 ≠ v.width) ∨ (c ≠ 6 ∧ c + 7 ≠ v.width) ∨
        (r + 7 = v.width ∧ c + 7 = v.width)) := by
  simp only [alignmentCentres, List.mem_filter, List.mem_flatMap, List.mem_map, Prod.mk.injEq] at h
  obtain ⟨⟨r', hr, c', hc, rfl, rfl⟩, hcorner⟩ := h
  refine ⟨alignment_positions v _ hr, alignment_positions v _ hc, ?_⟩
  simp only [isFinderCorner, Bool.not_eq_true', Bool.and_eq_false_iff, Bool.not_eq_false',
    decide_eq_false_iff_not, decide_eq_true_eq, not_or] at hcorner
  tauto

end FunctionPattern

open FunctionPattern

/-- A function pattern is an alignment pattern, a timing line or a finder. -/
theorem isSome_functionColour? {v : Version} {p : Nat × Nat} :
    (functionColour? v p).isSome ↔
      (alignment? v p).isSome ∨ (timing? v.width p).isSome ∨ (finder? v.width p).isSome := by
  unfold functionColour?
  cases alignment? v p <;> cases timing? v.width p <;> simp

/-- **The timing column belongs to function patterns.** -/
theorem functionColour?_timingColumn {v : Version} {p : Nat × Nat} (hr : p.1 < v.width)
    (hc : p.2 = Zigzag.timingColumn) : (functionColour? v p).isSome := by
  have hw := v.width_bounds
  unfold Zigzag.timingColumn at hc
  rw [isSome_functionColour?, isSome_timing?, isSome_finder?_iff_bounds]
  omega

/-- What is reserved belongs to one of three kinds. -/
theorem isReserved_eq_true {v : Version} {p : Nat × Nat} :
    isReserved v p = true ↔
      (functionColour? v p).isSome ∨ p ∈ formatPlaces v.width ∨ p ∈ versionPlaces v := by
  simp only [isReserved, Bool.or_eq_true, List.contains_iff_mem, or_assoc]

/-- What is not reserved belongs to none of them. -/
theorem isReserved_eq_false {v : Version} {p : Nat × Nat} :
    isReserved v p = false ↔
      functionColour? v p = none ∧ p ∉ formatPlaces v.width ∧ p ∉ versionPlaces v := by
  rw [← Bool.not_eq_true, isReserved_eq_true, not_or, not_or, Option.not_isSome_iff_eq_none]

/-- The data region is every place inside that nothing else occupies. -/
theorem mem_dataPlaces_iff {v : Version} {p : Nat × Nat} :
    p ∈ dataPlaces v ↔ p.1 < v.width ∧ p.2 < v.width ∧ isReserved v p = false := by
  rw [mem_dataPlaces, Version.mem_path]
  constructor
  · rintro ⟨⟨hr, hc, -⟩, hres⟩
    exact ⟨hr, hc, hres⟩
  · rintro ⟨hr, hc, hres⟩
    refine ⟨⟨hr, hc, fun hcolumn => ?_⟩, hres⟩
    rw [isReserved, functionColour?_timingColumn hr hcolumn] at hres
    cases hres

/-- **No function pattern reaches the format or version information.** -/
theorem functionColour?_eq_none {v : Version} {p : Nat × Nat}
    (h : p ∈ formatPlaces v.width ∨ p ∈ versionPlaces v) : functionColour? v p = none := by
  have hw := v.width_bounds
  have hp := h.imp (formatPlaces_bounds hw.1 p) versionPlaces_bounds
  rw [← Option.not_isSome_iff_eq_none, isSome_functionColour?, isSome_timing?, isSome_finder?_iff_bounds]
  rintro (ha | ht | hf)
  · -- rows and columns so close to a finder have only its corner as a centre nearby
    obtain ⟨k, hk⟩ := Option.isSome_iff_exists.1 ha
    obtain ⟨⟨r, c⟩, hcentre, hnear, -⟩ := exists_centre hk
    have := centre_bounds hcentre
    rw [kingDistance_le_iff] at hnear
    omega
  · omega
  · omega

/-- Format and version information do not meet. -/
theorem notMem_formatPlaces {v : Version} {p : Nat × Nat} (h : p ∈ versionPlaces v) :
    p ∉ formatPlaces v.width := by
  intro hf
  have := versionPlaces_bounds h
  have := formatPlaces_bounds v.width_bounds.1 p hf
  omega

/-! ### Room for the codewords -/

/-- The places of a box: `height` rows from `r` on and `width` columns from `c` on. -/
def box (r height c width : Nat) : List (Nat × Nat) :=
  (List.range' r height).flatMap fun r => (List.range' c width).map fun c => (r, c)

/-- A box holds the places between its bounds. -/
theorem mem_box {r height c width : Nat} {p : Nat × Nat} :
    p ∈ box r height c width ↔ (r ≤ p.1 ∧ p.1 < r + height) ∧ c ≤ p.2 ∧ p.2 < c + width := by
  obtain ⟨x, y⟩ := p
  simp [box, and_assoc]

/-- A box has as many places as its area. -/
theorem length_box (r height c width : Nat) : (box r height c width).length = height * width := by
  simp [box, List.length_flatMap, List.map_const']

/-- The finders with their separators, less the timing column. -/
def finderCover (n : Nat) : List (Nat × Nat) :=
  box 0 8 0 6 ++ box 0 8 7 1 ++ box 0 8 (n - 8) 8 ++ box (n - 8) 8 0 6 ++ box (n - 8) 8 7 1

/-- The alignment pattern around a centre, less the timing lines. -/
def patternCover (centre : Nat × Nat) : List (Nat × Nat) :=
  let (r, c) := centre
  if r = 6 then box 4 2 (c - 2) 5 ++ box 7 2 (c - 2) 5
  else if c = 6 then box (r - 2) 5 4 2 ++ box (r - 2) 5 7 2
  else box (r - 2) 5 (c - 2) 5

/-- Boxes that cover all reserved places of the path. -/
def reservedCover (v : Version) : List (Nat × Nat) :=
  finderCover v.width ++ box 6 1 8 (v.width - 16) ++ (alignmentCentres v).flatMap patternCover ++
    formatPlaces v.width ++ versionPlaces v

/-- The boxes of the cover hold all of the finders on the path. -/
theorem mem_finderCover {n : Nat} {p : Nat × Nat} (hr : p.1 < n) (hc : p.2 < n) (hne : p.2 ≠ 6)
    (h : (finder? n p).isSome) : p ∈ finderCover n := by
  rw [isSome_finder?_iff_bounds] at h
  simp only [finderCover, List.mem_append, mem_box]
  omega

/-- A place of an alignment pattern off the timing column lies in the cover of a
centre, or on the horizontal timing line. -/
theorem mem_patternCover {v : Version} {p : Nat × Nat} (hne : p.2 ≠ 6)
    (h : (alignment? v p).isSome) :
    p ∈ (alignmentCentres v).flatMap patternCover ∨ p ∈ box 6 1 8 (v.width - 16) := by
  have hw := v.width_bounds
  obtain ⟨k, hk⟩ := Option.isSome_iff_exists.1 h
  obtain ⟨⟨r, c⟩, hcentre, hnear, -⟩ := exists_centre hk
  have := centre_bounds hcentre
  rw [kingDistance_le_iff] at hnear
  by_cases hline : p.1 = 6
  · right
    rw [mem_box]
    omega
  · left
    refine List.mem_flatMap.2 ⟨(r, c), hcentre, ?_⟩
    unfold patternCover
    dsimp only
    split
    · simp only [List.mem_append, mem_box]
      omega
    · split
      · simp only [List.mem_append, mem_box]
        omega
      · rw [mem_box]
        omega

/-- **The cover holds all reserved places of the path.** -/
theorem mem_reservedCover {v : Version} {p : Nat × Nat} (hp : p ∈ Zigzag.path v.width)
    (h : isReserved v p = true) : p ∈ reservedCover v := by
  obtain ⟨hr, hc, hne⟩ := Version.mem_path.1 hp
  rw [isReserved_eq_true, isSome_functionColour?] at h
  simp only [reservedCover, List.mem_append]
  rcases h with (ha | ht | hf) | hformat | hversion
  · rcases mem_patternCover hne ha with h | h
    · exact .inl (.inl (.inr h))
    · exact .inl (.inl (.inl (.inr h)))
  · have hbox : p ∈ box 6 1 8 (v.width - 16) := by
      rw [isSome_timing?] at ht
      unfold Zigzag.timingColumn at hne
      rw [mem_box]
      omega
    exact .inl (.inl (.inl (.inr hbox)))
  · exact .inl (.inl (.inl (.inl (mem_finderCover hr hc hne hf))))
  · exact .inl (.inr hformat)
  · exact .inr hversion

/-- An alignment pattern on the timing column loses one column to it. -/
theorem length_patternCover (q : Nat × Nat) :
    (patternCover q).length = if q.1 = 6 ∨ q.2 = 6 then 20 else 25 := by
  unfold patternCover
  dsimp only
  by_cases hr : q.1 = 6
  · simp [hr, length_box]
  · by_cases hc : q.2 = 6
    · simp [hr, hc, length_box]
    · simp [hr, hc, length_box]

/-- The size of the cover, pattern by pattern. -/
theorem length_reservedCover (v : Version) :
    (reservedCover v).length =
      207 + (v.width - 16) +
        ((alignmentCentres v).map fun q => if q.1 = 6 ∨ q.2 = 6 then 20 else 25).sum +
        (versionPlaces v).length := by
  simp only [reservedCover, finderCover, List.length_append, length_box, List.length_flatMap,
    length_patternCover, formatPlaces, formatMain, formatSide, List.length_cons, List.length_nil]
  omega

/-- What the cover leaves of a symbol is enough, version by version. -/
theorem codewords_add_reserved_le (v : Version) :
    8 * v.totalCodewords + (207 + (v.width - 16) +
        ((alignmentCentres v).map fun q => if q.1 = 6 ∨ q.2 = 6 then 20 else 25).sum +
        (versionPlaces v).length) ≤ v.width / 2 * (2 * v.width) := by
  revert v; decide +kernel

/-- **The data region of every version has room for all its codewords.** -/
theorem codewords_le_dataPlaces (v : Version) : 8 * v.totalCodewords ≤ (dataPlaces v).length := by
  have hcover : ((Zigzag.path v.width).filter (isReserved v)).length ≤ (reservedCover v).length := by
    refine (List.subperm_of_subset (v.nodup_path.filter _) fun p hp => ?_).length_le
    obtain ⟨hpath, hres⟩ := List.mem_filter.1 hp
    exact mem_reservedCover hpath hres
  have hsplit : (Zigzag.path v.width).length =
      ((Zigzag.path v.width).filter (isReserved v)).length + (dataPlaces v).length :=
    List.length_eq_length_filter_add _
  have hroom := codewords_add_reserved_le v
  rw [length_reservedCover] at hcover
  rw [Zigzag.length_path] at hsplit
  omega

end QRCode
