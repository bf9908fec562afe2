/-
# Versions

`Version`, whose number is checked by `Version::new`.

A version is a number from `1` to `40`; it fixes the size of a symbol, four
modules more for each version, starting at `21`.  Three tiers of versions share
the widths of the character count field: `1 … 9`, `10 … 26` and `27 … 40`.

The bounds are part of the type, so that a table with forty rows can be read
without a check (`Version.index`), and a statement about all versions is a
statement about forty cases (`Version.forall_iff`).
-/

import QRCode.Error

namespace QRCode

/-- A version of a symbol. -/
structure Version where
  /-- The number of the version. -/
  number : Nat
  one_le : 1 ≤ number
  le_forty : number ≤ 40
  deriving DecidableEq

namespace Version

/-- The version with a given number (`Version::new`). -/
def ofNat (n : Nat) : Except Error Version :=
  if h : 1 ≤ n ∧ n ≤ 40 then .ok ⟨n, h.1, h.2⟩ else .error (.invalidVersion n)

/-- The row of a version in a table with forty rows. -/
def index (v : Version) : Fin 40 :=
  ⟨v.number - 1, by have := v.one_le; have := v.le_forty; omega⟩

/-- The version of a row in a table with forty rows. -/
def ofIndex (i : Fin 40) : Version := ⟨i.val + 1, by omega, by omega⟩

/-- All versions, smallest first (`Version::all`). -/
def all : List Version := (List.finRange 40).map ofIndex

/-- The number of modules along an edge (`Version::width`). -/
def width (v : Version) : Nat := 4 * v.number + 17

/-- The tier of a version, which fixes the width of the character count field (`Version::tier`). -/
def tier (v : Version) : Fin 3 :=
  if v.number ≤ 9 then 0 else if v.number ≤ 26 then 1 else 2

/-- A version is determined by its number. -/
@[ext] theorem ext {v w : Version} (h : v.number = w.number) : v = w := by
  cases v; cases w; cases h; rfl

/-- A version is found again in its row. -/
@[simp] theorem ofIndex_index (v : Version) : ofIndex v.index = v := by
  ext; have := v.one_le; simp only [ofIndex, index]; omega

/-- The list of versions is complete. -/
theorem mem_all (v : Version) : v ∈ all :=
  List.mem_map.2 ⟨v.index, List.mem_finRange _, ofIndex_index v⟩

/-- **A statement about all versions is a statement about forty cases.** -/
theorem forall_iff {P : Version → Prop} : (∀ v, P v) ↔ ∀ i, P (ofIndex i) :=
  ⟨fun h _ => h _, fun h v => ofIndex_index v ▸ h v.index⟩

instance {P : Version → Prop} [DecidablePred P] : Decidable (∀ v, P v) :=
  decidable_of_iff _ forall_iff.symm

/-- The number of a version is accepted, and gives the version back. -/
theorem ofNat_number (v : Version) : ofNat v.number = .ok v := by
  rw [ofNat, dif_pos ⟨v.one_le, v.le_forty⟩]

/-- Exactly the numbers from `1` to `40` are versions. -/
theorem ofNat_eq_error_iff {n : Nat} {e : Error} :
    ofNat n = .error e ↔ e = .invalidVersion n ∧ ¬(1 ≤ n ∧ n ≤ 40) := by
  unfold ofNat; split
  · rename_i h; simp [h]
  · rename_i h; simp only [Except.error.injEq, h, not_false_eq_true, and_true]; exact eq_comm

/-- Symbols are from 21 to 177 modules wide. -/
theorem width_bounds (v : Version) : 21 ≤ v.width ∧ v.width ≤ 177 := by
  have := v.one_le; have := v.le_forty; unfold width; omega

/-- The number of modules along an edge is odd, so the two-module columns of the
placement path leave exactly one column over. -/
theorem width_odd (v : Version) : v.width % 2 = 1 := by unfold width; omega

/-- A version is determined by the width of its symbol. -/
theorem width_injective {v w : Version} (h : v.width = w.width) : v = w := by
  ext; unfold width at h; omega

end Version
end QRCode
