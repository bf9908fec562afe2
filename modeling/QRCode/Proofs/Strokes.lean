/-
# Drawing stroke by stroke

`Canvas::set`, again and again.

A stroke sets one cell at signed coordinates, which count from the far edge where they are
negative.  A pattern that is given by strokes may meet a cell more than once, and a stroke
beyond the edges would fail (`Draft.strokeAll`).  Two things make such a drawing the same as
one that looks up the colour of each cell:

| fact | statement |
| --- | --- |
| strokes within the edges succeed, and set the cells at their places | `Draft.strokeAll_eq` |
| strokes that agree on a colouring, and miss none of it, draw it | `Grid.get?_setAll_of_colouring` |

So the order of strokes does not matter when those that meet agree.
-/

import QRCode.Proofs.Drawing

namespace QRCode

/-! ### Writing to a grid -/

namespace Grid

variable {α : Type} {n : Nat} {g h : Grid α n} {l : List ((Nat × Nat) × α)} {q : Nat × Nat} {x : α}

/-- A grid is determined by what is read at places. -/
theorem ext_get? (H : ∀ p, g.get? p = h.get? p) : g = h := by
  refine ext_get fun r c => ?_
  have hp := H (r, c)
  rw [get?_eq_some r.isLt c.isLt, get?_eq_some r.isLt c.isLt] at hp
  exact Option.some.inj hp

/-- Writes can be made in two goes. -/
theorem setAll_append (g : Grid α n) (l l' : List ((Nat × Nat) × α)) :
    g.setAll (l ++ l') = (g.setAll l).setAll l' := List.foldl_append

/-- A place that is written more than once holds a value that all its writes agree on. -/
theorem get?_setAll_of_forall (hq : q ∈ l.map Prod.fst) (hx : ∀ e ∈ l, e.1 = q → e.2 = x) :
    (g.setAll l).get? q = (g.get? q).map fun _ => x := by
  induction l generalizing g with
  | nil => cases hq
  | cons e l ih =>
    have hrest : ∀ e' ∈ l, e'.1 = q → e'.2 = x := fun e' he' => hx e' (List.mem_cons_of_mem _ he')
    show ((g.set e.1 e.2).setAll l).get? q = _
    by_cases hmore : q ∈ l.map Prod.fst
    · rw [ih hmore hrest, get?_set]
      split
      · rw [Option.map_map]; rfl
      · rfl
    · obtain rfl : q = e.1 := (List.mem_cons.1 hq).resolve_right hmore
      rw [get?_setAll_of_notMem hmore, get?_set, if_pos rfl, hx e List.mem_cons_self rfl]

/-- **Writes that agree on a colouring draw it**, in whatever order they come, when every place
that it colours is written. -/
theorem get?_setAll_of_colouring {β : Type} {f : Nat × Nat → Option β} (role : β → α)
    {l : List ((Nat × Nat) × β)} (hagree : ∀ e ∈ l, f e.1 = some e.2)
    (hcover : ∀ p : Nat × Nat, p.1 < n → p.2 < n → (f p).isSome → p ∈ l.map Prod.fst) (p : Nat × Nat) :
    (g.setAll (l.map fun e => (e.1, role e.2))).get? p =
      (g.get? p).map fun x => ((f p).map role).getD x := by
  have hmap : (l.map fun e => (e.1, role e.2)).map Prod.fst = l.map Prod.fst := map_fst_map role l
  by_cases hp : p ∈ l.map Prod.fst
  · obtain ⟨e, he, rfl⟩ := List.mem_map.1 hp
    rw [hagree e he]
    refine get?_setAll_of_forall (hmap ▸ hp) fun e' he' heq => ?_
    obtain ⟨e'', he'', rfl⟩ := List.mem_map.1 he'
    have hsame : f e''.1 = f e.1 := congrArg f heq
    rw [hagree e'' he'', hagree e he] at hsame
    exact congrArg role (Option.some.inj hsame)
  · rw [get?_setAll_of_notMem (hmap ▸ hp)]
    by_cases hin : p.1 < n ∧ p.2 < n
    · have hnone : f p = none := by
        rw [← Option.not_isSome_iff_eq_none]
        exact fun hsome => hp (hcover p hin.1 hin.2 hsome)
      rw [hnone]
      exact Option.map_id'.symm
    · rw [get?_eq_none hin]
      rfl

end Grid

namespace Draft

/-! ### Signed coordinates -/

/-- Whether signed coordinates lie within the edges. -/
def Within (n : Nat) (x : Int × Int) : Prop := (-(n : Int) ≤ x.1 ∧ x.1 < n) ∧ -(n : Int) ≤ x.2 ∧ x.2 < n

/-- The place that signed coordinates name. -/
def placeOf (n : Nat) (x : Int × Int) : Nat × Nat := ((x.1 % n).toNat, (x.2 % n).toNat)

/-- From zero up a coordinate stands as it is, and below it counts from the far edge. -/
theorem toNat_emod {n : Nat} {x : Int} (h : -(n : Int) ≤ x ∧ x < n) :
    0 ≤ x ∧ ((x % n).toNat : Int) = x ∨ x < 0 ∧ ((x % n).toNat : Int) = x + n := by
  rcases Int.lt_or_le x 0 with hneg | hpos
  · have hmod : x % n = x + n := by
      rw [← Int.add_emod_right, Int.emod_eq_of_lt (by omega) (by omega)]
    exact .inr ⟨hneg, by rw [hmod]; omega⟩
  · exact .inl ⟨hpos, by rw [Int.emod_eq_of_lt hpos h.2]; omega⟩

/-- Coordinates within the edges name a place inside. -/
theorem placeOf_lt {n : Nat} {x : Int × Int} (h : Within n x) :
    (placeOf n x).1 < n ∧ (placeOf n x).2 < n := by
  have hr := toNat_emod h.1
  have hc := toNat_emod h.2
  unfold Within at h
  unfold placeOf
  omega

/-- A coordinate below zero counts from the far edge. -/
theorem toNat_neg_emod {n k : Nat} (hpos : 0 < k) (hk : k ≤ n) : ((-(k : Int)) % n).toNat = n - k := by
  have := toNat_emod (n := n) (x := -(k : Int)) (by omega)
  omega

/-- A place inside is named by its own row and column. -/
theorem placeOf_natCast {n : Nat} {p : Nat × Nat} (h : p.1 < n ∧ p.2 < n) : placeOf n (p.1, p.2) = p := by
  have hr := toNat_emod (n := n) (x := p.1) (by omega)
  have hc := toNat_emod (n := n) (x := p.2) (by omega)
  refine Prod.ext ?_ ?_ <;> unfold placeOf <;> dsimp only <;> omega

variable {d : Draft} {x : Int × Int}

/-- Coordinates that lie within the narrowest symbol lie within any. -/
theorem within_of_small {n : Nat} (hn : 21 ≤ n)
    (h : (-21 ≤ x.1 ∧ x.1 < 21) ∧ -21 ≤ x.2 ∧ x.2 < 21) : Within n x := by
  unfold Within
  omega

/-- Coordinates within the edges have a place. -/
theorem place_eq (h : Within d.width x) : d.place x.1 x.2 = .ok (placeOf d.width x) := by
  rw [place, wrap?, wrap?, if_pos h.1, if_pos h.2]
  rfl

/-- A cell within the edges can be set. -/
theorem set_eq (h : Within d.width x) (cell : Cell) :
    d.set x.1 x.2 cell = .ok { d with grid := d.grid.set (placeOf d.width x) cell } := by
  rw [set, place_eq h]
  rfl

/-- A cell within the edges can be looked at. -/
theorem get_eq (h : Within d.width x) :
    d.get x.1 x.2 = .ok ((d.grid.get? (placeOf d.width x)).getD .empty) := by
  rw [get, place_eq h]
  rfl

/-! ### Strokes -/

/-- Cells of one role set one after the other; one beyond the edges ends the drawing. -/
def strokeAll (role : Colour → Cell) (strokes : List ((Int × Int) × Colour)) (d : Draft) :
    Except Error Draft :=
  strokes.foldlM (fun d s => d.set s.1.1 s.1.2 (role s.2)) d

/-- The places of strokes, with their colours. -/
def strokePlaces (n : Nat) (strokes : List ((Int × Int) × Colour)) : List ((Nat × Nat) × Colour) :=
  strokes.map fun s => (placeOf n s.1, s.2)

/-- What follows a drawing that succeeds starts from what it has drawn. -/
theorem ok_bind (d : Draft) (next : Draft → Except Error Draft) : (Except.ok d >>= next) = next d := rfl

/-- The places of strokes come in the order of the strokes. -/
theorem strokePlaces_append (n : Nat) (strokes strokes' : List ((Int × Int) × Colour)) :
    strokePlaces n (strokes ++ strokes') = strokePlaces n strokes ++ strokePlaces n strokes' :=
  List.map_append

@[simp] theorem withCells_version (d : Draft) (role : Colour → Cell) (l : List ((Nat × Nat) × Colour)) :
    (d.withCells role l).version = d.version := rfl

@[simp] theorem withCells_width (d : Draft) (role : Colour → Cell) (l : List ((Nat × Nat) × Colour)) :
    (d.withCells role l).width = d.width := rfl

/-- Cells of one role can be drawn in two goes. -/
theorem withCells_append (d : Draft) (role : Colour → Cell) (l l' : List ((Nat × Nat) × Colour)) :
    d.withCells role (l ++ l') = (d.withCells role l).withCells role l' := by
  unfold withCells
  rw [List.map_append, Grid.setAll_append]

/-- **Strokes within the edges succeed.** -/
theorem strokeAll_eq (role : Colour → Cell) {strokes : List ((Int × Int) × Colour)}
    (h : ∀ s ∈ strokes, Within d.width s.1) :
    d.strokeAll role strokes = .ok (d.withCells role (strokePlaces d.width strokes)) := by
  induction strokes generalizing d with
  | nil => rfl
  | cons s strokes ih =>
    have hrest := ih (d := { d with grid := d.grid.set (placeOf d.width s.1) (role s.2) })
      fun s' hs' => h s' (List.mem_cons_of_mem _ hs')
    rw [strokeAll, List.foldlM_cons, set_eq (h s List.mem_cons_self)]
    exact hrest

end Draft
end QRCode
