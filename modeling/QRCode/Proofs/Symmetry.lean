/-
# The penalty of turned and mirrored grids

`compute_total_penalty`, which goes over rows and columns.

A square has eight symmetries, four turns and four reflections, and no rule of the penalty
tells a grid from its image under one of them.  Two reflections give all eight:

| reflection | rows and columns |
| --- | --- |
| `Grid.transpose` | change places |
| `Grid.mirror` | rows are read backwards, and columns come in the other order |

So it is enough to read a line backwards.  Counted place by place (`placePenalty`), a stretch
that begins at `j` begins, read backwards, where it ended; the count is the same because every
stretch lies inside its line (`card_filter_equiv`).  Finder cores are palindromes, and what is
quiet before one of them is quiet behind it.  The extra points of a run stand where it begins,
which read backwards is where it ends, and a line has as many beginnings as ends
(`Line.card_begins_eq_card_ends`).
-/

import QRCode.Proofs.PlacePenalty
import Mathlib.Algebra.BigOperators.Intervals

namespace QRCode

open Finset (range)

/-- Places that a one-to-one move of all places takes to each other are equally many. -/
theorem card_filter_equiv {n : ℕ} {P Q : ℤ → Prop} [DecidablePred P] [DecidablePred Q] (e : ℤ ≃ ℤ)
    (h : ∀ j, Q j ↔ P (e j)) (hP : ∀ j, P j → 0 ≤ j ∧ j < n) (hQ : ∀ j, Q j → 0 ≤ j ∧ j < n) :
    ((range n).filter fun j : ℕ => Q j).card = ((range n).filter fun j : ℕ => P j).card := by
  have hthere : ∀ j, Q j → P (e j) ∧ ((e j).toNat : ℤ) = e j ∧ (e j).toNat < n := by
    intro j hq
    have hp := (h j).1 hq
    have hin := hP _ hp
    exact ⟨hp, Int.toNat_of_nonneg hin.1, by omega⟩
  have hback : ∀ j, P j → Q (e.symm j) ∧ ((e.symm j).toNat : ℤ) = e.symm j ∧ (e.symm j).toNat < n := by
    intro j hp
    have hq : Q (e.symm j) := (h _).2 (by rwa [e.apply_symm_apply])
    have hin := hQ _ hq
    exact ⟨hq, Int.toNat_of_nonneg hin.1, by omega⟩
  refine Finset.card_bij' (fun j _ => (e j).toNat) (fun j _ => (e.symm j).toNat) ?_ ?_ ?_ ?_
  · intro j hj
    obtain ⟨hp, hcast, hlt⟩ := hthere j (Finset.mem_filter.1 hj).2
    rw [Finset.mem_filter, Finset.mem_range, hcast]
    exact ⟨hlt, hp⟩
  · intro j hj
    obtain ⟨hq, hcast, hlt⟩ := hback j (Finset.mem_filter.1 hj).2
    rw [Finset.mem_filter, Finset.mem_range, hcast]
    exact ⟨hlt, hq⟩
  · intro j hj
    rw [(hthere j (Finset.mem_filter.1 hj).2).2.1, e.symm_apply_apply, Int.toNat_natCast]
  · intro j hj
    rw [(hback j (Finset.mem_filter.1 hj).2).2.1, e.apply_symm_apply, Int.toNat_natCast]

/-! ### Lines read backwards -/

namespace Line

variable {n : ℕ} {line : Line} {j : ℤ}

/-- A line whose modules lie at the places before `n`. -/
def Inside (n : ℕ) (line : Line) : Prop := ∀ j, (line j).isSome → 0 ≤ j ∧ j < n

/-- A line read backwards from its last place. -/
def backwards (n : ℕ) (line : Line) : Line := fun j => line (n - 1 - j)

/-- Two places that add up to the last one are each other's image. -/
theorem backwards_of_add {a b : ℤ} (h : a + b = n - 1) : line.backwards n a = line b := by
  unfold backwards
  congr 1
  omega

/-- A line that is read backwards stays inside. -/
theorem Inside.backwards (h : line.Inside n) : (line.backwards n).Inside n := by
  intro j hj
  have := h _ hj
  omega

/-- A place five places behind which another colour or nothing follows. -/
def Ends (line : Line) (j : ℤ) : Prop := line (j + 5) ≠ line j

instance (line : Line) : DecidablePred line.Ends := fun _ => inferInstanceAs (Decidable (_ ≠ _))

/-- Each of five alike modules has the colour of the first. -/
theorem FiveAlike.apply (h : line.FiveAlike j) {i : ℤ} (hlow : 0 ≤ i) (hhigh : i < 5) :
    line (j + i) = line j := by
  obtain ⟨k, rfl⟩ := Int.eq_ofNat_of_zero_le hlow
  exact h.2 k (by omega)

/-- Five modules of the colour of the first are alike. -/
theorem fiveAlike_of_apply (hsome : (line j).isSome) (h : ∀ i : ℤ, 0 ≤ i → i < 5 → line (j + i) = line j) :
    line.FiveAlike j :=
  ⟨hsome, fun i hi => h i (Int.natCast_nonneg i) (by omega)⟩

/-- Five alike modules are alike from the other end. -/
theorem fiveAlike_backwards : (line.backwards n).FiveAlike j ↔ line.FiveAlike (n - 5 - j) := by
  have hplace : ∀ i : ℤ, line.backwards n (j + i) = line (n - 5 - j + (4 - i)) :=
    fun i => backwards_of_add (by omega)
  have hfirst : line.backwards n j = line (n - 5 - j + 4) := backwards_of_add (by omega)
  constructor
  · intro h
    -- read backwards, all five are like the last of the line's five
    have hall : ∀ i : ℤ, 0 ≤ i → i < 5 → line (n - 5 - j + i) = line (n - 5 - j + 4) := by
      intro i hlow hhigh
      have := h.apply (i := 4 - i) (by omega) (by omega)
      rwa [hplace, hfirst, Int.sub_sub_self] at this
    have hhere := hall 0 (by omega) (by omega)
    rw [Int.add_zero] at hhere
    refine fiveAlike_of_apply (by rw [hhere, ← hfirst]; exact h.1) fun i hlow hhigh => ?_
    rw [hall i hlow hhigh, hhere]
  · intro h
    have hlast := h.apply (i := 4) (by omega) (by omega)
    refine fiveAlike_of_apply (by rw [hfirst, hlast]; exact h.1) fun i hlow hhigh => ?_
    rw [hplace, hfirst, hlast, h.apply (by omega) (by omega)]

/-- The start of a run is, backwards, its end. -/
theorem begins_backwards (h : line.FiveAlike (n - 5 - j)) :
    (line.backwards n).Begins j ↔ line.Ends (n - 5 - j) := by
  have hbefore : line.backwards n (j - 1) = line (n - 5 - j + 5) := backwards_of_add (by omega)
  have hhere : line.backwards n j = line (n - 5 - j + 4) := backwards_of_add (by omega)
  rw [Begins, Ends, hbefore, hhere, h.apply (i := 4) (by omega) (by omega)]

/-- Five alike at a place that go on are five alike at the next place that do not begin there. -/
theorem goesOn_iff : line.FiveAlike j ∧ ¬line.Ends j ↔ line.FiveAlike (j + 1) ∧ ¬line.Begins (j + 1) := by
  unfold Ends Begins
  rw [Int.add_sub_cancel, not_not, not_not]
  constructor
  · rintro ⟨hfive, hnext⟩
    have hhere := hfive.apply (i := 1) (by omega) (by omega)
    refine ⟨fiveAlike_of_apply (by rw [hhere]; exact hfive.1) fun i hlow hhigh => ?_, hhere.symm⟩
    rw [hhere, Int.add_assoc]
    rcases Int.lt_or_le i 4 with hi | hi
    · exact hfive.apply (by omega) (by omega)
    · obtain rfl : i = 4 := by omega
      exact hnext
  · rintro ⟨hfive, hhere⟩
    have hall : ∀ i : ℤ, 1 ≤ i → i ≤ 5 → line (j + i) = line j := by
      intro i hlow hhigh
      have hnext := hfive.apply (i := i - 1) (by omega) (by omega)
      have hplace : j + 1 + (i - 1) = j + i := by omega
      rwa [hplace, ← hhere] at hnext
    have hsome : (line j).isSome := by rw [hhere]; exact hfive.1
    refine ⟨fiveAlike_of_apply hsome fun i hlow hhigh => ?_, hall 5 (by omega) (by omega)⟩
    rcases Int.lt_or_le 0 i with hi | hi
    · exact hall i (by omega) (by omega)
    · obtain rfl : i = 0 := by omega
      rw [Int.add_zero]

/-- Five alike modules lie inside. -/
theorem Inside.fiveAlike (h : line.Inside n) (hfive : line.FiveAlike j) : 0 ≤ j ∧ j < n := h j hfive.1

/-- **A line has as many beginnings of long runs as ends.** -/
theorem card_begins_eq_card_ends (h : line.Inside n) :
    ((range n).filter fun j : ℕ => line.FiveAlike j ∧ line.Begins j).card =
      ((range n).filter fun j : ℕ => line.FiveAlike j ∧ line.Ends j).card := by
  -- places that do not begin a run lie one behind places that do not end it
  have hmove := card_filter_equiv (n := n) (P := fun j => line.FiveAlike j ∧ ¬line.Begins j)
    (Q := fun j => line.FiveAlike j ∧ ¬line.Ends j) (Equiv.addRight 1) (fun j => goesOn_iff)
    (fun j hj => h.fiveAlike hj.1) (fun j hj => h.fiveAlike hj.1)
  have hbegins := Finset.card_filter_add_card_filter_not (s := (range n).filter fun j : ℕ => line.FiveAlike j)
    (fun j : ℕ => line.Begins j)
  have hends := Finset.card_filter_add_card_filter_not (s := (range n).filter fun j : ℕ => line.FiveAlike j)
    (fun j : ℕ => line.Ends j)
  simp only [Finset.filter_filter] at hbegins hends
  omega

/-- **Runs have the same points backwards.** -/
theorem runPlaces_backwards (h : line.Inside n) : (line.backwards n).runPlaces n = line.runPlaces n := by
  have hfive := card_filter_equiv (n := n) (P := line.FiveAlike) (Q := (line.backwards n).FiveAlike)
    (Equiv.subLeft (n - 5 : ℤ)) (fun j => fiveAlike_backwards) (fun j hj => h.fiveAlike hj)
    (fun j hj => h.backwards.fiveAlike hj)
  have hbegins := card_filter_equiv (n := n) (P := fun j => line.FiveAlike j ∧ line.Ends j)
    (Q := fun j => (line.backwards n).FiveAlike j ∧ (line.backwards n).Begins j) (Equiv.subLeft (n - 5 : ℤ))
    (fun j => by
      rw [fiveAlike_backwards]
      exact and_congr_right fun hj => begins_backwards hj)
    (fun j hj => h.fiveAlike hj.1) (fun j hj => h.backwards.fiveAlike hj.1)
  rw [runPlaces, runPlaces, hfive, hbegins, card_begins_eq_card_ends h]

/-! ### Finder-like stretches -/

/-- Four quiet modules are quiet from the other end. -/
theorem quiet_backwards : (line.backwards n).Quiet j ↔ line.Quiet (n - 4 - j) := by
  have hplace : ∀ i k : ℕ, i + k = 3 → line.backwards n (j + i) = line (n - 4 - j + k) :=
    fun i k hik => backwards_of_add (by omega)
  constructor
  · intro h k hk
    rw [← hplace (3 - k) k (by omega)]
    exact h (3 - k) (by omega)
  · intro h i hi
    rw [hplace i (3 - i) (by omega)]
    exact h (3 - i) (by omega)

/-- A finder core is the same backwards. -/
theorem core_backwards :
    (∀ i : Fin 7, line.backwards n (j + i.val) = some Penalty.finderCore[i]) ↔
      ∀ i : Fin 7, line (n - 7 - j + i.val) = some Penalty.finderCore[i] := by
  have hpalindrome : ∀ i : Fin 7, Penalty.finderCore[i.rev] = Penalty.finderCore[i] := by decide
  have hplace : ∀ i : Fin 7, line.backwards n (j + i.val) = line (n - 7 - j + i.rev.val) := fun i => by
    rw [Fin.val_rev]
    exact backwards_of_add (by omega)
  refine ⟨fun h i => ?_, fun h i => ?_⟩
  · have hi := h i.rev
    rwa [hplace, Fin.rev_rev, hpalindrome] at hi
  · rw [hplace, h i.rev, hpalindrome]

/-- **A finder-like stretch is one from the other end**, as its core is a palindrome. -/
theorem finderLike_backwards : (line.backwards n).FinderLike j ↔ line.FinderLike (n - 7 - j) := by
  have hbefore : (n : ℤ) - 4 - (j - 4) = n - 7 - j + 7 := by omega
  have hafter : (n : ℤ) - 4 - (j + 7) = n - 7 - j - 4 := by omega
  rw [FinderLike, FinderLike, core_backwards, quiet_backwards, quiet_backwards, hbefore, hafter, or_comm]

/-- A finder-like stretch lies inside. -/
theorem Inside.finderLike (h : line.Inside n) (hlike : line.FinderLike j) : 0 ≤ j ∧ j < n := by
  have hfirst := hlike.1 0
  refine h j ?_
  rw [Fin.val_zero, Int.natCast_zero, Int.add_zero] at hfirst
  rw [hfirst]
  rfl

/-- **Finder-like stretches are as many backwards.** -/
theorem finderPlaces_backwards (h : line.Inside n) :
    (line.backwards n).finderPlaces n = line.finderPlaces n :=
  card_filter_equiv (Equiv.subLeft (n - 7 : ℤ)) (fun _ => finderLike_backwards)
    (fun _ => h.finderLike) fun _ => h.backwards.finderLike

end Line

/-! ### Grids turned over -/

namespace Grid

variable {α : Type} {n : ℕ}

/-- The grid with rows and columns exchanged. -/
def transpose (g : Grid α n) : Grid α n := ofFn fun r c => g.get c r

/-- The grid with left and right exchanged. -/
def mirror (g : Grid α n) : Grid α n := ofFn fun r c => g.get r c.rev

@[simp] theorem get_transpose (g : Grid α n) (r c : Fin n) : g.transpose.get r c = g.get c r := get_ofFn _ r c

@[simp] theorem get_mirror (g : Grid α n) (r c : Fin n) : g.mirror.get r c = g.get r c.rev := get_ofFn _ r c

/-- At a row and a column the grid shows its value. -/
theorem look_eq_some (g : Grid α n) (r c : Fin n) : g.look r.val c.val = some (g.get r c) := by
  rw [look_natCast, get?_eq_some r.isLt c.isLt]

/-- Elsewhere it shows nothing. -/
theorem look_eq_none (g : Grid α n) {r c : ℤ} (h : ¬((0 ≤ r ∧ r < n) ∧ 0 ≤ c ∧ c < n)) :
    g.look r c = none := by
  unfold look
  split
  · exact get?_eq_none (by dsimp only; omega)
  · rfl

/-- Where a module is seen, it is one of the grid. -/
theorem inside_of_look {g : Grid α n} {r c : ℤ} (h : (g.look r c).isSome) :
    (0 ≤ r ∧ r < n) ∧ 0 ≤ c ∧ c < n := by
  by_contra hout
  rw [look_eq_none g hout] at h
  cases h

/-- Grids are compared at the places inside. -/
theorem look_congr {g h : Grid α n} {f : ℤ → ℤ → ℤ × ℤ}
    (hin : ∀ r c : Fin n, g.look r.val c.val = h.look (f r.val c.val).1 (f r.val c.val).2)
    (hout : ∀ r c : ℤ, (0 ≤ (f r c).1 ∧ (f r c).1 < n) ∧ 0 ≤ (f r c).2 ∧ (f r c).2 < n →
      (0 ≤ r ∧ r < n) ∧ 0 ≤ c ∧ c < n) (r c : ℤ) :
    g.look r c = h.look (f r c).1 (f r c).2 := by
  by_cases hplace : (0 ≤ r ∧ r < n) ∧ 0 ≤ c ∧ c < n
  · obtain ⟨r, rfl⟩ := Int.eq_ofNat_of_zero_le hplace.1.1
    obtain ⟨c, rfl⟩ := Int.eq_ofNat_of_zero_le hplace.2.1
    exact hin ⟨r, by omega⟩ ⟨c, by omega⟩
  · rw [look_eq_none g hplace, look_eq_none h fun hin => hplace (hout r c hin)]

/-- A transposed grid is looked at with row and column exchanged. -/
theorem look_transpose (g : Grid α n) (r c : ℤ) : g.transpose.look r c = g.look c r := by
  refine look_congr (f := fun r c => (c, r)) (fun r c => ?_) (fun r c h => h.symm) r c
  rw [look_eq_some, look_eq_some, get_transpose]

/-- A mirrored grid is looked at from the other edge. -/
theorem look_mirror (g : Grid α n) (r c : ℤ) : g.mirror.look r c = g.look r (n - 1 - c) := by
  refine look_congr (f := fun r c => (r, n - 1 - c)) (fun r c => ?_) (fun r c h => ?_) r c
  · have hrev : (n : ℤ) - 1 - c.val = (c.rev.val : ℕ) := by
      rw [Fin.val_rev]
      omega
    dsimp only
    rw [hrev, look_eq_some, look_eq_some, get_mirror]
  · dsimp only at h
    omega

/-! ### Each rule -/

section

variable (g : Grid Colour n)

/-- Rows keep inside the grid. -/
theorem inside_rowLine (r : ℤ) : (g.rowLine r).Inside n := fun _ h => (inside_of_look h).2

/-- The rows of a transposed grid are its columns. -/
theorem rowLine_transpose (i : ℤ) : g.transpose.rowLine i = g.columnLine i :=
  funext fun j => g.look_transpose i j

/-- The columns of a transposed grid are its rows. -/
theorem columnLine_transpose (i : ℤ) : g.transpose.columnLine i = g.rowLine i :=
  funext fun j => g.look_transpose j i

/-- The rows of a mirrored grid are read backwards. -/
theorem rowLine_mirror (r : ℤ) : g.mirror.rowLine r = (g.rowLine r).backwards n :=
  funext fun c => g.look_mirror r c

/-- Its columns come in the other order. -/
theorem columnLine_mirror (c : ℤ) : g.mirror.columnLine c = g.columnLine (n - 1 - c) :=
  funext fun r => g.look_mirror r c

/-- Rows and columns are scored alike. -/
theorem sum_lines_transpose (f : Line → ℕ) :
    ∑ i ∈ range n, (f (g.transpose.rowLine i) + f (g.transpose.columnLine i)) =
      ∑ i ∈ range n, (f (g.rowLine i) + f (g.columnLine i)) := by
  refine Finset.sum_congr rfl fun i _ => ?_
  rw [rowLine_transpose, columnLine_transpose, Nat.add_comm]

/-- A rule that reads lines backwards as well as forwards scores a mirrored grid alike. -/
theorem sum_lines_mirror (f : Line → ℕ) (hf : ∀ line : Line, line.Inside n → f (line.backwards n) = f line) :
    ∑ i ∈ range n, (f (g.mirror.rowLine i) + f (g.mirror.columnLine i)) =
      ∑ i ∈ range n, (f (g.rowLine i) + f (g.columnLine i)) := by
  rw [Finset.sum_add_distrib, Finset.sum_add_distrib,
    ← Finset.sum_range_reflect (fun i : ℕ => f (g.columnLine i))]
  congr 1
  · refine Finset.sum_congr rfl fun r _ => ?_
    rw [rowLine_mirror, hf _ (g.inside_rowLine r)]
  · refine Finset.sum_congr rfl fun c hc => ?_
    have hplace : ((n - 1 - c : ℕ) : ℤ) = n - 1 - c := by
      have := Finset.mem_range.1 hc
      omega
    rw [columnLine_mirror, hplace]

/-- Places may be counted row after row. -/
theorem card_filter_rows (P : ℕ → ℕ → Prop) [∀ r c, Decidable (P r c)] :
    ((range n ×ˢ range n).filter fun p => P p.1 p.2).card = ∑ r ∈ range n, ((range n).filter (P r)).card := by
  simp only [Finset.card_filter, Finset.sum_product]

/-- Places may be counted column after column. -/
theorem card_filter_swap (P : ℕ → ℕ → Prop) [∀ r c, Decidable (P r c)] :
    ((range n ×ˢ range n).filter fun p => P p.1 p.2).card =
      ((range n ×ˢ range n).filter fun p => P p.2 p.1).card := by
  simp only [Finset.card_filter, Finset.sum_product]
  exact Finset.sum_comm

/-- A transposed square is a square. -/
theorem squareAt_transpose (r c : ℤ) : g.transpose.SquareAt r c ↔ g.SquareAt c r := by
  simp only [SquareAt, look_transpose]
  exact and_congr_right fun _ => and_left_comm

/-- A mirrored square begins one place before its mirror image ends. -/
theorem squareAt_mirror (r c : ℤ) : g.mirror.SquareAt r c ↔ g.SquareAt r (n - 2 - c) := by
  have hhere : (n : ℤ) - 1 - c = n - 2 - c + 1 := by omega
  have hnext : (n : ℤ) - 1 - (c + 1) = n - 2 - c := by omega
  simp only [SquareAt, look_mirror, hhere, hnext]
  constructor
  · rintro ⟨hsome, hleft, hbelow, hcorner⟩
    exact ⟨hleft ▸ hsome, hleft.symm, hcorner.trans hleft.symm, hbelow.trans hleft.symm⟩
  · rintro ⟨hsome, hright, hbelow, hcorner⟩
    exact ⟨hright ▸ hsome, hright.symm, hcorner.trans hright.symm, hbelow.trans hright.symm⟩

/-- A transposed grid has as many squares. -/
theorem squarePlaces_transpose : g.transpose.squarePlaces = g.squarePlaces := by
  unfold squarePlaces
  simp only [squareAt_transpose]
  exact card_filter_swap fun r c => g.SquareAt (c : ℕ) (r : ℕ)

/-- So has a mirrored one. -/
theorem squarePlaces_mirror : g.mirror.squarePlaces = g.squarePlaces := by
  unfold squarePlaces
  rw [card_filter_rows fun r c => g.mirror.SquareAt (r : ℕ) (c : ℕ),
    card_filter_rows fun r c => g.SquareAt (r : ℕ) (c : ℕ)]
  refine Finset.sum_congr rfl fun r _ => ?_
  exact card_filter_equiv (Equiv.subLeft (n - 2 : ℤ)) (fun c => g.squareAt_mirror r c)
    (fun _ h => (inside_of_look h.1).2) fun _ h => (inside_of_look h.1).2

/-- A transposed grid has as many dark modules. -/
theorem darkPlaces_transpose : g.transpose.darkPlaces = g.darkPlaces := by
  unfold darkPlaces
  simp only [look_transpose]
  exact card_filter_swap fun r c => g.look (c : ℕ) (r : ℕ) = some .dark

/-- So has a mirrored one. -/
theorem darkPlaces_mirror : g.mirror.darkPlaces = g.darkPlaces := by
  unfold darkPlaces
  rw [card_filter_rows fun r c => g.mirror.look (r : ℕ) (c : ℕ) = some .dark,
    card_filter_rows fun r c => g.look (r : ℕ) (c : ℕ) = some .dark]
  refine Finset.sum_congr rfl fun r _ => ?_
  have hinside : ∀ (h : Grid Colour n) (c : ℤ), h.look r c = some .dark → 0 ≤ c ∧ c < n :=
    fun _ _ hdark => (inside_of_look (Option.isSome_of_eq_some hdark)).2
  exact card_filter_equiv (P := fun c => g.look r c = some .dark)
    (Q := fun c => g.mirror.look r c = some .dark) (Equiv.subLeft (n - 1 : ℤ))
    (fun c => by rw [look_mirror]; rfl) (hinside g) (hinside g.mirror)

end

end Grid

/-! ### The eight symmetries -/

/-- The symmetries of a square. -/
inductive SquareSymmetry where
  | identity
  /-- A turn to the right. -/
  | quarterTurn
  | halfTurn
  | threeQuarterTurn
  | leftRight
  | upDown
  /-- The reflection that keeps the upper left corner. -/
  | diagonal
  /-- The reflection that keeps the upper right corner. -/
  | antidiagonal
  deriving DecidableEq

/-- The place that a symmetry moves to a row and a column. -/
def SquareSymmetry.source {n : ℕ} (r c : Fin n) : SquareSymmetry → Fin n × Fin n
  | identity => (r, c)
  | quarterTurn => (c.rev, r)
  | halfTurn => (r.rev, c.rev)
  | threeQuarterTurn => (c, r.rev)
  | leftRight => (r, c.rev)
  | upDown => (r.rev, c)
  | diagonal => (c, r)
  | antidiagonal => (c.rev, r.rev)

/-- The grid moved by a symmetry. -/
def Grid.moved {α : Type} {n : ℕ} (g : Grid α n) (s : SquareSymmetry) : Grid α n :=
  .ofFn fun r c => g.get (s.source r c).1 (s.source r c).2

/-- A turn to the right puts the lowest row into the first column. -/
example : ((⟨#v[1, 2, 3, 4]⟩ : Grid ℕ 2).moved .quarterTurn).rows = [[3, 1], [4, 2]] := by decide

/-- **Two reflections give all symmetries.** -/
theorem Grid.moved_induction {α : Type} {n : ℕ} {P : Grid α n → Prop}
    (htranspose : ∀ g, P g → P g.transpose) (hmirror : ∀ g, P g → P g.mirror) {g : Grid α n} (h : P g)
    (s : SquareSymmetry) : P (g.moved s) := by
  have of_get : ∀ image : Grid α n, P image →
      (∀ r c, image.get r c = g.get (s.source r c).1 (s.source r c).2) → P (g.moved s) := by
    intro image himage hget
    have heq : g.moved s = image := ext_get fun r c => by rw [hget, moved, get_ofFn]
    rwa [heq]
  cases s with
  | identity => exact of_get g h fun _ _ => rfl
  | quarterTurn => exact of_get _ (hmirror _ (htranspose _ h)) (by simp [SquareSymmetry.source])
  | halfTurn =>
    exact of_get _ (hmirror _ (htranspose _ (hmirror _ (htranspose _ h)))) (by simp [SquareSymmetry.source])
  | threeQuarterTurn => exact of_get _ (htranspose _ (hmirror _ h)) (by simp [SquareSymmetry.source])
  | leftRight => exact of_get _ (hmirror _ h) (by simp [SquareSymmetry.source])
  | upDown => exact of_get _ (htranspose _ (hmirror _ (htranspose _ h))) (by simp [SquareSymmetry.source])
  | diagonal => exact of_get _ (htranspose _ h) (by simp [SquareSymmetry.source])
  | antidiagonal => exact of_get _ (hmirror _ (htranspose _ (hmirror _ h))) (by simp [SquareSymmetry.source])

/-- **Rows and columns may be exchanged.** -/
theorem penalty_transpose {n : ℕ} (g : Grid Colour n) : penalty g.transpose = penalty g := by
  rw [penalty_eq, penalty_eq, placePenalty, g.sum_lines_transpose, g.sum_lines_transpose,
    g.squarePlaces_transpose, g.darkPlaces_transpose]
  rfl

/-- **Left and right may be exchanged.** -/
theorem penalty_mirror {n : ℕ} (g : Grid Colour n) : penalty g.mirror = penalty g := by
  rw [penalty_eq, penalty_eq, placePenalty, g.sum_lines_mirror _ fun _ => Line.runPlaces_backwards,
    g.sum_lines_mirror _ fun _ => Line.finderPlaces_backwards, g.squarePlaces_mirror, g.darkPlaces_mirror]
  rfl

/-- **The penalty is the same for all images of a grid**: for its transpose and its mirror image,
and for every turn and every reflection. -/
theorem penalty_symmetric {n : ℕ} (g : Grid Colour n) :
    penalty g.transpose = penalty g ∧ penalty g.mirror = penalty g ∧
      ∀ s : SquareSymmetry, penalty (g.moved s) = penalty g :=
  ⟨penalty_transpose g, penalty_mirror g,
    Grid.moved_induction (P := fun h => penalty h = penalty g)
      (fun h hh => (penalty_transpose h).trans hh) (fun h hh => (penalty_mirror h).trans hh) rfl⟩

end QRCode
