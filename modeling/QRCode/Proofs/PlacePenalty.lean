/-
# The penalty, counted place by place

`compute_total_penalty`, against a count of places.

Each rule of the penalty can be put as a number of places, without a run that is carried
along, a line that is continued or a percentage (`placePenalty`):

| rule | places counted | points for each |
| --- | --- | ---: |
| runs | where five modules of one colour begin, in a row or column | `1` |
| | those of them at the start of the line or behind the other colour | `2` more |
| squares | where a square of one colour begins | `3` |
| finder-like stretches | where a finder core begins beside four light places | `40` |
| balance | dark modules, against half of all | `10` for each twentieth |

A run of `k ≥ 5` modules has `k - 4` beginnings of five, one of them its own, which makes
`k - 2` points.  Places are signed, and beyond the edge no module is seen; so a stretch is
light where no dark module is seen, and nothing has to be laid around the grid.

Both ways of counting agree on every grid (`penalty_eq`), as each list function of
`QRCode.Penalty` is a sum over the places of its list (`sum_drop`).
-/

import QRCode.Proofs.Scoring
import QRCode.Version
import Mathlib.Algebra.BigOperators.Fin
import Mathlib.Algebra.BigOperators.Ring.Finset
import Mathlib.Data.List.OfFn

namespace QRCode

open Finset (range)

/-! ### Lines -/

/-- The modules of a line at signed places; there is none beyond its ends. -/
abbrev Line := ℤ → Option Colour

namespace Line

/-- Five modules of one colour, the first of them at a place. -/
def FiveAlike (line : Line) (j : ℤ) : Prop := (line j).isSome ∧ ∀ i < 5, line (j + (i : ℕ)) = line j

/-- A place at the start of the line or behind the other colour. -/
def Begins (line : Line) (j : ℤ) : Prop := line (j - 1) ≠ line j

/-- Four places without a dark module. -/
def Quiet (line : Line) (j : ℤ) : Prop := ∀ i < 4, line (j + (i : ℕ)) ≠ some .dark

/-- The modules across the middle of a finder pattern, with four light places before or
after them. -/
def FinderLike (line : Line) (j : ℤ) : Prop :=
  (∀ i : Fin 7, line (j + i.val) = some Penalty.finderCore[i]) ∧ (line.Quiet (j - 4) ∨ line.Quiet (j + 7))

instance (line : Line) : DecidablePred line.FiveAlike := fun _ => inferInstanceAs (Decidable (_ ∧ _))

instance (line : Line) : DecidablePred line.Begins := fun _ => inferInstanceAs (Decidable (_ ≠ _))

instance (line : Line) : DecidablePred line.Quiet := fun _ => inferInstanceAs (Decidable (∀ i < 4, _))

instance (line : Line) : DecidablePred line.FinderLike := fun _ => inferInstanceAs (Decidable (_ ∧ _))

/-- The points for the runs of a line, by the places before `n`. -/
def runPlaces (n : ℕ) (line : Line) : ℕ :=
  ((range n).filter fun j : ℕ => line.FiveAlike j).card +
    2 * ((range n).filter fun j : ℕ => line.FiveAlike j ∧ line.Begins j).card

/-- The number of finder-like stretches of a line, by the places before `n`. -/
def finderPlaces (n : ℕ) (line : Line) : ℕ := ((range n).filter fun j : ℕ => line.FinderLike j).card

/-- The line with the modules of a list. -/
def ofList (l : List Colour) : Line := fun j => if 0 ≤ j then l[j.toNat]? else none

end Line

/-! ### Grids -/

namespace Grid

variable {α : Type} {n : ℕ}

/-- The value at signed coordinates, if they lie inside. -/
def look (g : Grid α n) (r c : ℤ) : Option α :=
  if 0 ≤ r ∧ 0 ≤ c then g.get? (r.toNat, c.toNat) else none

/-- A row, at signed places. -/
def rowLine (g : Grid Colour n) (r : ℤ) : Line := fun c => g.look r c

/-- A column, at signed places. -/
def columnLine (g : Grid Colour n) (c : ℤ) : Line := fun r => g.look r c

/-- Whether a square of one colour begins at a place. -/
def SquareAt (g : Grid Colour n) (r c : ℤ) : Prop :=
  (g.look r c).isSome ∧ g.look r (c + 1) = g.look r c ∧ g.look (r + 1) c = g.look r c ∧
    g.look (r + 1) (c + 1) = g.look r c

instance (g : Grid Colour n) (r c : ℤ) : Decidable (g.SquareAt r c) := inferInstanceAs (Decidable (_ ∧ _))

/-- The number of squares of one colour. -/
def squarePlaces (g : Grid Colour n) : ℕ :=
  ((range n ×ˢ range n).filter fun p => g.SquareAt p.1 p.2).card

/-- The number of dark modules. -/
def darkPlaces (g : Grid Colour n) : ℕ :=
  ((range n ×ˢ range n).filter fun p => g.look p.1 p.2 = some .dark).card

end Grid

/-- The penalty of a grid, place by place. -/
def placePenalty {n : ℕ} (g : Grid Colour n) : ℕ :=
  ∑ i ∈ range n, ((g.rowLine i).runPlaces n + (g.columnLine i).runPlaces n) +
    3 * g.squarePlaces +
    40 * ∑ i ∈ range n, ((g.rowLine i).finderPlaces n + (g.columnLine i).finderPlaces n) +
    10 * ((20 * g.darkPlaces - 10 * n ^ 2 : ℤ).natAbs / n ^ 2)

/-! ### Sums over the places of a list -/

/-- A function of lists that adds a number for each place of a list. -/
theorem sum_drop {α : Type} {f g : List α → ℕ} (hnil : f [] = 0)
    (hcons : ∀ x xs, f (x :: xs) = g (x :: xs) + f xs) (l : List α) :
    f l = ∑ j ∈ range l.length, g (l.drop j) := by
  induction l with
  | nil => rw [hnil]; rfl
  | cons x xs ih =>
    rw [hcons, ih, List.length_cons, Finset.sum_range_succ', Nat.add_comm]
    rfl

/-- A list stands at a place of another list. -/
theorem take_drop_eq_iff {α : Type} {l w : List α} {a : ℕ} :
    (l.drop a).take w.length = w ↔ ∀ i : Fin w.length, l[a + i.val]? = some w[i] := by
  constructor
  · intro h i
    have hi := congrArg (·[i.val]?) h
    simpa only [List.getElem?_take, i.isLt, if_true, List.getElem?_drop,
      List.getElem?_eq_getElem i.isLt, Fin.getElem_fin] using hi
  · intro h
    refine List.ext_getElem? fun i => ?_
    rw [List.getElem?_take, List.getElem?_drop]
    split
    · rename_i hi
      rw [h ⟨i, hi⟩, List.getElem?_eq_getElem hi]
      rfl
    · rename_i hi
      rw [List.getElem?_eq_none (Nat.le_of_not_lt hi)]

/-! ### Runs -/

namespace Line

/-- From zero on, a line shows the colours of its list. -/
theorem ofList_natCast (l : List Colour) (j : ℕ) : ofList l j = l[j]? := by
  rw [ofList, if_pos (Int.natCast_nonneg j), Int.toNat_natCast]

/-- Before its beginning a line shows nothing. -/
theorem ofList_neg (l : List Colour) {j : ℤ} (h : j < 0) : ofList l j = none := if_neg (by omega)

/-- The line with the modules of a list, and a module before them. -/
def behind (before : Option Colour) (l : List Colour) : Line := fun j =>
  if j = -1 then before else ofList l j

/-- Nothing behind a line is nothing. -/
theorem behind_none (l : List Colour) : behind none l = ofList l := by
  funext j
  unfold behind
  split
  · rename_i hj
    rw [ofList_neg l (by omega)]
  · rfl

/-- The rest of a line has its first module before it. -/
theorem behind_cons (before : Option Colour) (x : Colour) (l : List Colour) {j : ℤ} (h : -1 ≤ j) :
    behind before (x :: l) (j + 1) = behind (some x) l j := by
  obtain ⟨k, rfl⟩ : ∃ k : ℕ, j = k - 1 := ⟨(j + 1).toNat, by omega⟩
  unfold behind
  rw [if_neg (by omega), Int.sub_add_cancel, ofList_natCast]
  cases k with
  | zero => rfl
  | succ k =>
    rw [if_neg (by omega), Int.natCast_succ, Int.add_sub_cancel, ofList_natCast, List.getElem?_cons_succ]

/-- The points of a place: one where five alike begin, three at the beginning of a run. -/
def placePoints (line : Line) (j : ℤ) : ℕ :=
  if line.FiveAlike j then if line.Begins j then 3 else 1 else 0

/-- Points for runs are given place by place. -/
theorem runPlaces_eq_sum (n : ℕ) (line : Line) :
    line.runPlaces n = ∑ j ∈ range n, line.placePoints (j : ℕ) := by
  rw [runPlaces, Finset.card_filter, Finset.card_filter, Finset.mul_sum, ← Finset.sum_add_distrib]
  refine Finset.sum_congr rfl fun j _ => ?_
  unfold placePoints
  by_cases halike : line.FiveAlike j
  · by_cases hbegins : line.Begins j
    · simp [halike, hbegins]
    · simp [halike, hbegins]
  · simp [halike]

/-- The points of a place do not depend on how much of the line stands before its neighbour. -/
theorem placePoints_cons (before : Option Colour) (x : Colour) (l : List Colour) (j : ℕ) :
    (behind before (x :: l)).placePoints ((j + 1 : ℕ) : ℤ) = (behind (some x) l).placePoints j := by
  have hstep : ∀ i : ℕ, behind before (x :: l) (((j + 1 : ℕ) : ℤ) + i) = behind (some x) l (j + i) :=
    fun i => by
      rw [← behind_cons before x l (by omega)]
      congr 1
      omega
  have hbefore : behind before (x :: l) (((j + 1 : ℕ) : ℤ) - 1) = behind (some x) l (j - 1) := by
    rw [← behind_cons before x l (by omega)]
    congr 1
    omega
  have hhere := hstep 0
  rw [Int.natCast_zero, Int.add_zero, Int.add_zero] at hhere
  have halike : (behind before (x :: l)).FiveAlike ((j + 1 : ℕ) : ℤ) ↔
      (behind (some x) l).FiveAlike j := by
    simp only [FiveAlike, hstep, hhere]
  have hbegins : (behind before (x :: l)).Begins ((j + 1 : ℕ) : ℤ) ↔ (behind (some x) l).Begins j := by
    simp only [Begins, hbefore, hhere]
  simp only [placePoints, halike, hbegins]

end Line

namespace Penalty

variable {k : Colour} {rest : List Colour}

/-- The points of the runs of a list, place by place, with a module before them. -/
def runsBehind (before : Option Colour) : List Colour → ℕ
  | [] => 0
  | x :: xs =>
    (if ∀ i < 5, (x :: xs)[i]? = some x then if before = some x then 1 else 3 else 0) + runsBehind (some x) xs

/-- **Points that a scan gives to runs are points of places.** -/
theorem runsBehind_eq_sum (before : Option Colour) (l : List Colour) :
    runsBehind before l = ∑ j ∈ range l.length, (Line.behind before l).placePoints (j : ℕ) := by
  induction l generalizing before with
  | nil => rfl
  | cons x xs ih =>
    have hfirst : (Line.behind before (x :: xs)).placePoints (0 : ℕ) =
        if ∀ i < 5, (x :: xs)[i]? = some x then if before = some x then 1 else 3 else 0 := by
      have hline : ∀ i : ℕ, Line.behind before (x :: xs) i = (x :: xs)[i]? := fun i => by
        rw [Line.behind, if_neg (by omega), Line.ofList_natCast]
      have hhere : Line.behind before (x :: xs) 0 = some x := hline 0
      have hbefore : Line.behind before (x :: xs) (-1) = before := if_pos rfl
      simp [Line.placePoints, Line.FiveAlike, Line.Begins, hline, hhere, hbefore]
    rw [runsBehind, ih, List.length_cons, Finset.sum_range_succ', hfirst, Nat.add_comm]
    simp only [Line.placePoints_cons]

/-- Five alike begin where a run ends when the run is long enough. -/
theorem five_replicate (hrest : rest.head? ≠ some k) (m : ℕ) :
    (∀ i < 5, (List.replicate (m + 1) k ++ rest)[i]? = some k) ↔ 5 ≤ m + 1 := by
  constructor
  · intro h
    by_contra hm
    refine hrest ?_
    have hend := h (m + 1) (by omega)
    rwa [List.getElem?_append_right (by rw [List.length_replicate]), List.length_replicate, Nat.sub_self,
      ← List.head?_eq_getElem?] at hend
  · intro hm i hi
    rw [List.getElem?_append_left (by rw [List.length_replicate]; omega),
      List.getElem?_replicate_of_lt (by omega)]

/-- A run that goes on has a point for each place but the last four. -/
theorem runsBehind_inside (hrest : rest.head? ≠ some k) (m : ℕ) :
    runsBehind (some k) (List.replicate m k ++ rest) = (m - 4) + runsBehind (some k) rest := by
  induction m with
  | zero => simp
  | succ m ih =>
    have hfive := five_replicate hrest m
    rw [List.replicate_succ, List.cons_append] at hfive ⊢
    rw [runsBehind, ih]
    simp only [hfive, if_true]
    split <;> omega

/-- **A run has its points at its places.** -/
theorem runsBehind_replicate (hrest : rest.head? ≠ some k) (m : ℕ) :
    runsBehind none (List.replicate (m + 1) k ++ rest) = runPoints (m + 1) + runsBehind (some k) rest := by
  have hfive := five_replicate hrest m
  rw [List.replicate_succ, List.cons_append] at hfive ⊢
  rw [runsBehind, runsBehind_inside hrest]
  simp only [hfive, reduceCtorEq, if_false]
  unfold runPoints
  split <;> omega

/-- The other colour begins a run as the start of the line does. -/
theorem runsBehind_other (hrest : rest.head? ≠ some k) :
    runsBehind (some k) rest = runsBehind none rest := by
  cases rest with
  | nil => rfl
  | cons x rest =>
    have hne : some k ≠ some x := fun h => hrest h.symm
    simp only [runsBehind, if_neg hne, reduceCtorEq, if_false]

/-- **The runs of a line**, with its first run still open, are those of the places. -/
theorem runsFrom_eq (k : Colour) (m : ℕ) (l : List Colour) :
    runsFrom k (m + 1) l = runsBehind none (List.replicate (m + 1) k ++ l) := by
  induction l generalizing k m with
  | nil =>
    rw [runsFrom, runsBehind_replicate (by simp)]
    rfl
  | cons x l ih =>
    rw [runsFrom]
    split
    · rename_i hx
      rw [ih, hx, List.replicate_succ' (n := m + 1), List.append_assoc]
      rfl
    · rename_i hx
      have hrest : (x :: l).head? ≠ some k := fun h => hx (Option.some.inj h)
      rw [ih x 0, runsBehind_replicate hrest, runsBehind_other hrest]
      rfl

/-- So are the points of a whole line. -/
theorem runs_eq_runPlaces (l : List Colour) : runs l = (Line.ofList l).runPlaces l.length := by
  rw [Line.runPlaces_eq_sum, ← Line.behind_none, ← runsBehind_eq_sum]
  cases l with
  | nil => rfl
  | cons x l => exact runsFrom_eq x 0 l

end Penalty

/-! ### Finder-like stretches -/

namespace Penalty

/-- The frame of light modules makes a line eight longer. -/
theorem length_framed (l : List Colour) : (quiet ++ l ++ quiet).length = l.length + 8 := by
  simp only [List.length_append, quiet, List.length_replicate]
  omega

/-- A line with light modules around it shows, where no module is seen, a light one. -/
theorem getElem?_framed (l : List Colour) {a : ℕ} (h : a < l.length + 8) :
    (quiet ++ l ++ quiet)[a]? = some ((Line.ofList l (a - 4)).getD .light) := by
  have hquiet : quiet.length = 4 := rfl
  by_cases hfront : a < 4
  · rw [List.append_assoc, List.getElem?_append_left (by omega), Line.ofList_neg l (by omega), quiet,
      List.getElem?_replicate_of_lt hfront]
    rfl
  · obtain ⟨j, rfl⟩ := Nat.exists_eq_add_of_le (Nat.le_of_not_lt hfront)
    have hplace : ((4 + j : ℕ) : ℤ) - 4 = j := by omega
    rw [hplace, Line.ofList_natCast, List.append_assoc, List.getElem?_append_right (by omega), hquiet,
      Nat.add_sub_cancel_left]
    by_cases hj : j < l.length
    · rw [List.getElem?_append_left hj, List.getElem?_eq_getElem hj]
      rfl
    · rw [List.getElem?_append_right (by omega), List.getElem?_eq_none (Nat.le_of_not_lt hj), quiet,
        List.getElem?_replicate_of_lt (by omega)]
      rfl

/-- Four light modules of the framed line are four places without a dark one. -/
theorem take_quiet_iff (l : List Colour) {a : ℕ} (h : a ≤ l.length + 4) :
    ((quiet ++ l ++ quiet).drop a).take 4 = quiet ↔ (Line.ofList l).Quiet (a - 4) := by
  have hlight : ∀ {k : Option Colour}, k.getD .light = .light ↔ k ≠ some .dark := by
    rintro (_ | _ | _) <;> decide
  refine (take_drop_eq_iff (w := quiet)).trans ?_
  simp only [Line.Quiet]
  constructor
  · intro hall i hi
    have hplace : (a : ℤ) - 4 + i = (a + i : ℕ) - 4 := by omega
    have hi' := hall ⟨i, hi⟩
    rw [getElem?_framed l (by dsimp only; omega)] at hi'
    rw [hplace]
    refine hlight.1 ((Option.some.inj hi').trans ?_)
    exact List.getElem_replicate _
  · intro hall i
    have hi : i.val < 4 := i.isLt
    have hplace : (a : ℤ) - 4 + i.val = (a + i.val : ℕ) - 4 := by omega
    rw [getElem?_framed l (by omega), ← hplace, hlight.2 (hall i.val hi)]
    exact congrArg some (List.getElem_replicate _).symm

/-- A finder core lies inside its line. -/
theorem end_lt_of_core {l : List Colour} {j : ℕ}
    (h : ∀ i : Fin 7, Line.ofList l (j + i.val) = some finderCore[i]) : j + 6 < l.length := by
  have hlast : Line.ofList l ((j + 6 : ℕ) : ℤ) = some .dark := h 6
  rw [Line.ofList_natCast] at hlast
  exact (List.getElem?_eq_some_iff.1 hlast).1

/-- A dark module of the framed line lies inside the line. -/
theorem lt_of_dark_framed {l : List Colour} {a : ℕ} (h : (quiet ++ l ++ quiet)[a + 4]? = some .dark) :
    a < l.length := by
  by_contra hout
  by_cases hframe : a + 4 < l.length + 8
  · have hplace : ((a + 4 : ℕ) : ℤ) - 4 = (a : ℕ) := by omega
    rw [getElem?_framed l hframe, hplace, Line.ofList_natCast,
      List.getElem?_eq_none (Nat.le_of_not_lt hout)] at h
    cases h
  · rw [List.getElem?_eq_none (by rw [length_framed]; omega)] at h
    cases h

/-- A finder core in the framed line lies inside the line, as its last module is dark. -/
theorem take_finderCore_iff (l : List Colour) (j : ℕ) :
    ((quiet ++ l ++ quiet).drop (j + 4)).take 7 = finderCore ↔
      ∀ i : Fin 7, Line.ofList l (j + i.val) = some finderCore[i] := by
  have hcast : ∀ i : ℕ, ((j : ℤ) + i) = (j + i : ℕ) := fun i => rfl
  have hinside : j + 6 < l.length → ∀ i : Fin 7,
      (quiet ++ l ++ quiet)[j + 4 + i.val]? = Line.ofList l (j + i.val) := by
    intro hend i
    have hplace : ((j + 4 + i.val : ℕ) : ℤ) - 4 = (j + i.val : ℕ) := by omega
    rw [getElem?_framed l (by omega), hplace, hcast, Line.ofList_natCast,
      List.getElem?_eq_getElem (by omega)]
    rfl
  refine (take_drop_eq_iff (w := finderCore)).trans ⟨fun hall => ?_, fun hall => ?_⟩
  · have hlast : (quiet ++ l ++ quiet)[j + 4 + 6]? = some .dark := hall ⟨6, by decide⟩
    have hend : j + 6 < l.length := lt_of_dark_framed (by rwa [Nat.add_right_comm] at hlast)
    exact fun i => (hinside hend i).symm.trans (hall i)
  · exact fun i => (hinside (end_lt_of_core hall) i).trans (hall i)

/-- **A stretch of the framed line** is a finder core beside four light places. -/
theorem startsFinderLike_iff (l : List Colour) (j : ℕ) :
    startsFinderLike ((quiet ++ l ++ quiet).drop j) = true ↔
      j < l.length ∧ (Line.ofList l).FinderLike j := by
  have hcore := take_finderCore_iff l j
  have hafter : ((j + 11 : ℕ) : ℤ) - 4 = j + 7 := by omega
  rw [startsFinderLike, Bool.and_eq_true, Bool.or_eq_true, beq_iff_eq, beq_iff_eq, beq_iff_eq, List.drop_drop,
    List.drop_drop]
  constructor
  · rintro ⟨hstretch, hsides⟩
    have hall := hcore.1 hstretch
    have hend := end_lt_of_core hall
    rw [take_quiet_iff l (by omega), take_quiet_iff l (by omega), hafter] at hsides
    exact ⟨by omega, hall, hsides⟩
  · rintro ⟨-, hall, hsides⟩
    have hend := end_lt_of_core hall
    rw [take_quiet_iff l (by omega), take_quiet_iff l (by omega), hafter]
    exact ⟨hcore.2 hall, hsides⟩

/-- **The finder-like stretches of a line** are those of the places. -/
theorem finderLike_eq_finderPlaces (l : List Colour) :
    finderLike l = 40 * (Line.ofList l).finderPlaces l.length := by
  rw [finderLike, sum_drop (f := countFinderLike) (g := fun rest => if startsFinderLike rest then 1 else 0)
    rfl (fun _ _ => rfl), length_framed, ← Finset.card_filter, Line.finderPlaces]
  congr 2
  ext j
  simp only [Finset.mem_filter, Finset.mem_range]
  constructor
  · rintro ⟨-, hstarts⟩
    exact (startsFinderLike_iff l j).1 hstarts
  · rintro ⟨hj, hlike⟩
    exact ⟨by omega, (startsFinderLike_iff l j).2 ⟨hj, hlike⟩⟩

end Penalty

/-! ### Squares and dark modules -/

namespace Penalty

/-- The squares between two rows, column by column. -/
theorem squaresBetween_eq_sum (upper lower : List Colour) :
    squaresBetween upper lower = ∑ c ∈ range upper.length,
      if upper[c]?.isSome ∧ upper[c + 1]? = upper[c]? ∧ lower[c]? = upper[c]? ∧ lower[c + 1]? = upper[c]?
        then 3 else 0 := by
  fun_induction squaresBetween upper lower with
  | case1 a b above c d below ih =>
    rw [ih, List.length_cons (a := a), Finset.sum_range_succ', Nat.add_comm]
    congr 1
    refine if_congr ?_ rfl rfl
    simp only [List.getElem?_cons_zero, List.getElem?_cons_succ, Option.isSome_some, true_and,
      Option.some.injEq, @eq_comm _ a]
  | case2 upper lower hshort =>
    refine (Finset.sum_eq_zero fun c _ => if_neg ?_).symm
    rintro ⟨hsome, hright, hbelow, hcorner⟩
    obtain ⟨k, hk⟩ := Option.isSome_iff_exists.1 hsome
    rw [hk] at hright hcorner
    -- both rows go on behind the place
    have hupper := (List.getElem?_eq_some_iff.1 hright).1
    have hlower := (List.getElem?_eq_some_iff.1 hcorner).1
    rcases upper with _ | ⟨a, _ | ⟨b, above⟩⟩
    · simp at hupper
    · simp at hupper
    · rcases lower with _ | ⟨a', _ | ⟨b', below⟩⟩
      · simp at hlower
      · simp at hlower
      · exact hshort a b above a' b' below rfl rfl

/-- The squares of a list of rows, row by row. -/
theorem squares_eq_sum (rows : List (List Colour)) :
    squares rows = ∑ r ∈ range rows.length, squaresBetween (rows.getD r []) (rows.getD (r + 1) []) := by
  induction rows with
  | nil => rfl
  | cons upper rows ih =>
    rw [List.length_cons, Finset.sum_range_succ', Nat.add_comm]
    simp only [List.getD_cons_succ, List.getD_cons_zero, ← ih]
    cases rows with
    | nil => simp [squares, squaresBetween]
    | cons lower rest => rfl

end Penalty

namespace Grid

variable {n : ℕ} (g : Grid Colour n)

/-- From zero on, looking at signed coordinates is reading at a place. -/
theorem look_natCast {α : Type} (g : Grid α n) (r c : ℕ) : g.look r c = g.get? (r, c) := by
  rw [look, if_pos ⟨Int.natCast_nonneg r, Int.natCast_nonneg c⟩]
  rfl

/-- A row shows the grid at its places. -/
theorem getElem?_row (r : Fin n) (c : ℕ) : (g.row r)[c]? = g.get? (r, c) := by
  rw [row, List.getElem?_ofFn, get?]
  simp only [r.isLt, true_and]

/-- A column shows the grid at its places. -/
theorem getElem?_column (c : Fin n) (r : ℕ) : (g.column c)[r]? = g.get? (r, c) := by
  rw [column, List.getElem?_ofFn, get?]
  simp only [c.isLt, and_true]

/-- Before the first row and column there is nothing to see. -/
theorem look_of_neg {α : Type} (g : Grid α n) {r c : ℤ} (h : r < 0 ∨ c < 0) : g.look r c = none :=
  if_neg (by omega)

/-- A row as a list, and at signed places. -/
theorem rowLine_eq (r : Fin n) : g.rowLine r.val = Line.ofList (g.row r) := by
  funext c
  rcases lt_or_ge c 0 with hc | hc
  · rw [Line.ofList_neg _ hc, rowLine, look_of_neg g (.inr hc)]
  · obtain ⟨c, rfl⟩ := Int.eq_ofNat_of_zero_le hc
    rw [Line.ofList_natCast, getElem?_row, rowLine, look_natCast]

/-- A column as a list, and at signed places. -/
theorem columnLine_eq (c : Fin n) : g.columnLine c.val = Line.ofList (g.column c) := by
  funext r
  rcases lt_or_ge r 0 with hr | hr
  · rw [Line.ofList_neg _ hr, columnLine, look_of_neg g (.inl hr)]
  · obtain ⟨r, rfl⟩ := Int.eq_ofNat_of_zero_le hr
    rw [Line.ofList_natCast, getElem?_column, columnLine, look_natCast]

/-- The rows of a grid, and nothing behind them, hold its values. -/
theorem getElem?_rows (r c : ℕ) : (g.rows.getD r [])[c]? = g.get? (r, c) := by
  rw [List.getD_eq_getElem?_getD, rows, List.getElem?_ofFn]
  by_cases hr : r < n
  · rw [dif_pos hr]
    exact g.getElem?_row ⟨r, hr⟩ c
  · rw [dif_neg hr, get?_eq_none fun hin => hr hin.1]
    rfl

/-- A sum over the rows and columns of a grid. -/
theorem sum_lines (f : List Colour → ℕ) (h : Line → ℕ)
    (hf : ∀ l : List Colour, l.length = n → f l = h (.ofList l)) :
    ((g.rows ++ g.columns).map f).sum = ∑ i ∈ range n, (h (g.rowLine i) + h (g.columnLine i)) := by
  rw [← Fin.sum_univ_eq_sum_range fun i => h (g.rowLine i) + h (g.columnLine i), Finset.sum_add_distrib,
    List.map_append, List.sum_append, rows, columns, List.map_ofFn, List.map_ofFn, List.sum_ofFn, List.sum_ofFn]
  congr 1
  · refine Finset.sum_congr rfl fun r _ => ?_
    rw [rowLine_eq, ← hf _ (g.length_row r)]
    rfl
  · refine Finset.sum_congr rfl fun c _ => ?_
    rw [columnLine_eq, ← hf _ (g.length_column c)]
    rfl

/-- **The squares of a grid** are those of the places. -/
theorem squares_eq_squarePlaces : Penalty.squares g.rows = 3 * g.squarePlaces := by
  rw [Penalty.squares_eq_sum, length_rows, squarePlaces, Finset.card_filter, Finset.sum_product, Finset.mul_sum]
  refine Finset.sum_congr rfl fun r hr => ?_
  have hlen : (g.rows.getD r []).length = n := by
    have hr := Finset.mem_range.1 hr
    rw [List.getD_eq_getElem?_getD, rows, List.getElem?_ofFn, dif_pos hr]
    exact g.length_row ⟨r, hr⟩
  rw [Penalty.squaresBetween_eq_sum, hlen, Finset.mul_sum]
  refine Finset.sum_congr rfl fun c _ => ?_
  have hsquare : g.SquareAt (r : ℕ) (c : ℕ) ↔
      (g.get? (r, c)).isSome ∧ g.get? (r, c + 1) = g.get? (r, c) ∧ g.get? (r + 1, c) = g.get? (r, c) ∧
        g.get? (r + 1, c + 1) = g.get? (r, c) := by
    simp only [SquareAt, ← look_natCast, Int.natCast_add, Int.natCast_one]
  simp only [getElem?_rows, hsquare]
  split <;> rfl

/-- The dark modules of a list, place by place. -/
theorem countP_isDark (l : List Colour) :
    l.countP Colour.isDark = ∑ c ∈ range l.length, if l[c]? = some .dark then 1 else 0 := by
  rw [sum_drop (f := List.countP Colour.isDark) (g := fun rest => if rest.head? = some .dark then 1 else 0) rfl]
  · simp only [List.head?_drop]
  · intro x xs
    cases x <;> simp [List.countP_cons, Colour.isDark, Nat.add_comm]

/-- **The dark modules of a grid** are those of the places. -/
theorem countP_eq_darkPlaces : g.toList.countP Colour.isDark = g.darkPlaces := by
  rw [toList, List.countP_flatten, rows, List.map_ofFn, List.sum_ofFn, darkPlaces, Finset.card_filter,
    Finset.sum_product,
    ← Fin.sum_univ_eq_sum_range fun r => ∑ c ∈ range n, if g.look r c = some .dark then 1 else 0]
  refine Finset.sum_congr rfl fun r _ => ?_
  rw [Function.comp_apply, countP_isDark, length_row]
  simp only [getElem?_row, look_natCast]

end Grid

/-- Half of all modules, and a deviation from it to either side. -/
theorem balance_eq (dark total : ℕ) :
    Penalty.balance dark total = 10 * ((20 * dark - 10 * total : ℤ).natAbs / total) := by
  have hdeviation : (20 * dark - 10 * total : ℤ).natAbs =
      20 * dark - 10 * total + (10 * total - 20 * dark) := by
    omega
  rw [Penalty.balance, hdeviation, Nat.mul_comm]

/-- **Both ways of counting agree.** -/
theorem penalty_eq {n : ℕ} (g : Grid Colour n) : penalty g = placePenalty g := by
  have hruns := g.sum_lines Penalty.runs (Line.runPlaces n) fun l hl => hl ▸ Penalty.runs_eq_runPlaces l
  have hfinder := g.sum_lines Penalty.finderLike (fun line => 40 * line.finderPlaces n) fun l hl =>
    hl ▸ Penalty.finderLike_eq_finderPlaces l
  have hbalance := balance_eq g.darkPlaces (n * n)
  unfold penalty placePenalty
  dsimp only
  rw [hruns, hfinder, g.squares_eq_squarePlaces, g.countP_eq_darkPlaces, hbalance, Finset.mul_sum]
  simp only [Nat.mul_add, pow_two, Int.natCast_mul]

/-- Ten runs, sixteen squares, and ten twentieths away from half. -/
example : placePenalty (Grid.fill 5 Colour.dark) = 10 * 3 + 16 * 3 + 10 * 10 := by decide +kernel

/-- **The penalty of a symbol is counted place by place**, for any colours of its modules,
and never leaves 32 bits. -/
theorem penalty_eq_placePenalty (v : Version) (g : Grid Colour v.width) :
    penalty g = placePenalty g ∧ penalty g < 2 ^ 32 :=
  ⟨penalty_eq g, Penalty.total_lt g v.width_bounds.2⟩

end QRCode
