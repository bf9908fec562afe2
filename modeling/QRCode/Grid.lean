/-
# Square grids

A grid of width `n` has one value for each row and column below `n`, stored row
after row.  It is read at bounded coordinates (`get`) or at any place (`get?`), and
is determined by what `get` reads (`Grid.ext_get`).

| operation | what is read afterwards |
| --- | --- |
| `ofFn f` | `f r c` (`get_ofFn`) |
| `mapCells f` | `f r c` of the old value (`get_mapCells`) |
| `set p x` | `x` at `p`, the old value elsewhere (`get?_set`) |
| `setAll l` | at a place that `l` names once, its value; elsewhere the old one |
-/

namespace QRCode

/-- A square grid, row after row. -/
structure Grid (α : Type) (n : Nat) where
  cells : Vector α (n * n)
  deriving DecidableEq

namespace Grid

variable {α β : Type} {n : Nat}

/-- Every row and column has a place in storage. -/
theorem index_lt {r c : Nat} (hr : r < n) (hc : c < n) : r * n + c < n * n := by
  have h : (r + 1) * n ≤ n * n := Nat.mul_le_mul_right n hr
  rw [Nat.add_mul, Nat.one_mul] at h
  omega

/-- The row of a stored value lies inside. -/
theorem row_lt {i : Nat} (h : i < n * n) : i / n < n := Nat.div_lt_of_lt_mul h

/-- The column of a stored value lies inside. -/
theorem column_lt {i : Nat} (h : i < n * n) : i % n < n := by
  refine Nat.mod_lt _ (Nat.pos_of_ne_zero ?_)
  rintro rfl
  simp at h

/-- The value at a row and a column. -/
def get (g : Grid α n) (r c : Fin n) : α :=
  have := index_lt r.isLt c.isLt
  g.cells[r.val * n + c.val]

/-- The value at a place, if it lies inside. -/
def get? (g : Grid α n) (p : Nat × Nat) : Option α :=
  if h : p.1 < n ∧ p.2 < n then some (g.get ⟨p.1, h.1⟩ ⟨p.2, h.2⟩) else none

/-- The grid with given values. -/
def ofFn (f : Fin n → Fin n → α) : Grid α n :=
  ⟨Vector.ofFn fun i => f ⟨i.val / n, row_lt i.isLt⟩ ⟨i.val % n, column_lt i.isLt⟩⟩

/-- The grid with one value everywhere. -/
def fill (n : Nat) (x : α) : Grid α n := ⟨Vector.replicate (n * n) x⟩

/-- Every value replaced by a function of its row, its column and itself. -/
def mapCells (f : Fin n → Fin n → α → β) (g : Grid α n) : Grid β n := ofFn fun r c => f r c (g.get r c)

/-- Every value replaced by a function of itself. -/
def map (f : α → β) (g : Grid α n) : Grid β n := ⟨g.cells.map f⟩

/-- One value replaced, if its place lies inside. -/
def set (g : Grid α n) (p : Nat × Nat) (x : α) : Grid α n :=
  if h : p.1 < n ∧ p.2 < n then ⟨g.cells.set (p.1 * n + p.2) x (index_lt h.1 h.2)⟩ else g

/-- Values replaced one after the other. -/
def setAll (g : Grid α n) (l : List ((Nat × Nat) × α)) : Grid α n :=
  l.foldl (fun g e => g.set e.1 e.2) g

/-- A row, from left to right. -/
def row (g : Grid α n) (r : Fin n) : List α := List.ofFn fun c => g.get r c

/-- A column, from top to bottom. -/
def column (g : Grid α n) (c : Fin n) : List α := List.ofFn fun r => g.get r c

/-- All rows, from top to bottom. -/
def rows (g : Grid α n) : List (List α) := List.ofFn g.row

/-- All columns, from left to right. -/
def columns (g : Grid α n) : List (List α) := List.ofFn g.column

/-- All values, row after row. -/
def toList (g : Grid α n) : List α := g.rows.flatten

/-! ### Reading -/

/-- Inside, reading at a place is reading at its row and column. -/
theorem get?_eq_some {g : Grid α n} {r c : Nat} (hr : r < n) (hc : c < n) :
    g.get? (r, c) = some (g.get ⟨r, hr⟩ ⟨c, hc⟩) := dif_pos ⟨hr, hc⟩

/-- Outside there is nothing to read. -/
theorem get?_eq_none {g : Grid α n} {p : Nat × Nat} (h : ¬(p.1 < n ∧ p.2 < n)) : g.get? p = none :=
  dif_neg h

/-- **A grid is determined by its values.** -/
theorem ext_get {g h : Grid α n} (H : ∀ r c, g.get r c = h.get r c) : g = h := by
  obtain ⟨x⟩ := g
  obtain ⟨y⟩ := h
  congr 1
  refine Vector.ext fun i hi => ?_
  have := H ⟨i / n, row_lt hi⟩ ⟨i % n, column_lt hi⟩
  simpa only [get, Nat.mul_comm (i / n) n, Nat.div_add_mod] using this

@[simp] theorem get_ofFn (f : Fin n → Fin n → α) (r c : Fin n) : (ofFn f).get r c = f r c := by
  have hpos : 0 < n := Nat.lt_of_le_of_lt (Nat.zero_le _) r.isLt
  have h₁ : (r.val * n + c.val) / n = r := by
    rw [Nat.mul_comm, Nat.mul_add_div hpos, Nat.div_eq_of_lt c.isLt, Nat.add_zero]
  have h₂ : (r.val * n + c.val) % n = c := by
    rw [Nat.mul_comm, Nat.mul_add_mod, Nat.mod_eq_of_lt c.isLt]
  simp only [get, ofFn, Vector.getElem_ofFn]
  congr 1
  · exact Fin.ext h₁
  · exact Fin.ext h₂

@[simp] theorem get_fill (x : α) (r c : Fin n) : (fill n x).get r c = x := by
  simp [get, fill]

@[simp] theorem get_mapCells (f : Fin n → Fin n → α → β) (g : Grid α n) (r c : Fin n) :
    (g.mapCells f).get r c = f r c (g.get r c) := get_ofFn _ r c

@[simp] theorem get_map (f : α → β) (g : Grid α n) (r c : Fin n) :
    (g.map f).get r c = f (g.get r c) := by
  simp [get, map]

/-! ### Writing -/

/-- A row and a column show what was written there last. -/
theorem get_set (g : Grid α n) (p : Nat × Nat) (x : α) (r c : Fin n) :
    (g.set p x).get r c = if p = (r.val, c.val) then x else g.get r c := by
  unfold set
  split
  · rename_i h
    simp only [get, Vector.getElem_set]
    by_cases hp : p = (r.val, c.val)
    · rw [if_pos hp, if_pos (by rw [hp])]
    · rw [if_neg hp, if_neg]
      intro he
      have hd := congrArg (· / n) he
      have hm := congrArg (· % n) he
      have hpos : 0 < n := Nat.lt_of_le_of_lt (Nat.zero_le _) r.isLt
      simp only [Nat.mul_comm _ n, Nat.mul_add_div hpos, Nat.mul_add_mod, Nat.div_eq_of_lt h.2,
        Nat.div_eq_of_lt c.isLt, Nat.mod_eq_of_lt h.2, Nat.mod_eq_of_lt c.isLt, Nat.add_zero] at hd hm
      exact hp (Prod.ext hd hm)
  · rename_i h
    rw [if_neg]
    rintro rfl
    exact h ⟨r.isLt, c.isLt⟩

/-- **Writing changes one value**, and nothing when its place lies outside. -/
theorem get?_set (g : Grid α n) (p q : Nat × Nat) (x : α) :
    (g.set p x).get? q = if p = q then (g.get? q).map fun _ => x else g.get? q := by
  unfold get?
  by_cases h : q.1 < n ∧ q.2 < n
  · simp only [dif_pos h, get_set, Option.map_some]
    split <;> rfl
  · simp only [dif_neg h, Option.map_none, ite_self]

/-- Values written elsewhere leave a place as it is. -/
theorem get?_setAll_of_notMem {g : Grid α n} {l : List ((Nat × Nat) × α)} {q : Nat × Nat}
    (h : q ∉ l.map Prod.fst) : (g.setAll l).get? q = g.get? q := by
  induction l generalizing g with
  | nil => rfl
  | cons e l ih =>
    rw [List.map_cons, List.mem_cons, not_or] at h
    rw [setAll, List.foldl_cons]
    refine (ih h.2).trans ?_
    rw [get?_set, if_neg (Ne.symm h.1)]

/-- **Values written to different places stay there.** -/
theorem get?_setAll_of_mem {g : Grid α n} {l : List ((Nat × Nat) × α)} {q : Nat × Nat} {x : α}
    (hn : (l.map Prod.fst).Nodup) (h : (q, x) ∈ l) :
    (g.setAll l).get? q = (g.get? q).map fun _ => x := by
  induction l generalizing g with
  | nil => cases h
  | cons e l ih =>
    rw [List.map_cons, List.nodup_cons] at hn
    rw [setAll, List.foldl_cons]
    rcases List.mem_cons.1 h with rfl | h
    · refine (get?_setAll_of_notMem hn.1).trans ?_
      rw [get?_set, if_pos rfl]
    · refine (ih hn.2 h).trans ?_
      rw [get?_set]
      split
      · rw [Option.map_map]; rfl
      · rfl

/-! ### Rows and columns -/

@[simp] theorem length_row (g : Grid α n) (r : Fin n) : (g.row r).length = n := List.length_ofFn

@[simp] theorem length_column (g : Grid α n) (c : Fin n) : (g.column c).length = n := List.length_ofFn

@[simp] theorem length_rows (g : Grid α n) : g.rows.length = n := List.length_ofFn

@[simp] theorem length_columns (g : Grid α n) : g.columns.length = n := List.length_ofFn

end Grid
end QRCode
