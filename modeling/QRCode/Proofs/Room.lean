/-
# The room that a version has for characters

`Sizing::fits` and `find_version`.

A sizing rule compares the packed characters with a number of bits that depends on the
version, the level and the mode, and on no character: the room (`Sizing.room`).

| rule | room with `D` data codewords |
| --- | --- |
| `conservative` | `8 (D - 3)` |
| `exact` | `8 D - 4 - (width of the count field)` |

Two facts about the tables make the room grow with the version (`Sizing.room_strictMono`):
from one version to the next there are at least six more data codewords
(`Version.dataCodewords_add_le`), and the count field, which is wider in a higher tier, has
between eight and sixteen bits in all tiers, so it never takes back what was gained.
Along the levels the room shrinks.  What fits in a version therefore fits in every larger
one and at every weaker level, and the first version that fits is a threshold
(`Sizing.fits_iff_smallestNumber_le`).
-/

import QRCode.Proofs.Outcome
import Mathlib.Data.ENat.Basic
import Mathlib.Order.Fin.Basic

namespace QRCode

variable {v w : Version} {level : Level} {mode : Mode}

/-! ### The tables -/

namespace Version

/-- **Every version has at least six more data codewords than the one before.** -/
theorem dataCodewords_add_le (level : Level) (h : w.number = v.number + 1) :
    v.dataCodewords level + 6 ≤ w.dataCodewords level := by
  -- two rows of the table that follow each other
  have table : ∀ i : Fin 39, (ofIndex i.castSucc).dataCodewords level + 6 ≤
      (ofIndex i.succ).dataCodewords level := by
    cases level <;> decide
  have hone := v.one_le
  have hforty := w.le_forty
  have hrow := table ⟨v.number - 1, by omega⟩
  have hv : ofIndex (Fin.castSucc ⟨v.number - 1, by omega⟩) = v :=
    ext (show v.number - 1 + 1 = v.number by omega)
  have hw : ofIndex (Fin.succ ⟨v.number - 1, by omega⟩) = w :=
    ext (show v.number - 1 + 1 + 1 = w.number by omega)
  rwa [hv, hw] at hrow

/-- The smallest symbols have room for three spare codewords. -/
theorem three_le_dataCodewords (v : Version) (level : Level) : 3 ≤ v.dataCodewords level := by
  revert v
  cases level <;> decide

/-- More protection leaves fewer data codewords. -/
theorem dataCodewords_anti (v : Version) {a b : Level} (h : a.index ≤ b.index) :
    v.dataCodewords b ≤ v.dataCodewords a := by
  revert h v
  cases a <;> cases b <;> decide

end Version

/-- A count field has eight bits at least. -/
theorem le_countBits (mode : Mode) (v : Version) : 8 ≤ mode.countBits v := by
  revert v
  cases mode <;> decide

/-! ### Room -/

namespace Sizing

variable {sizing : Sizing} {count : Nat}

/-- The bits that a version at a level has for packed characters. -/
def room (sizing : Sizing) (v : Version) (level : Level) (mode : Mode) : Nat :=
  match sizing with
  | conservative => 8 * (v.dataCodewords level - 3)
  | exact => v.dataBits level - (Mode.indicatorBits + mode.countBits v)

/-- **Characters fit when there is room for them.** -/
theorem fits_iff : sizing.fits v level mode count = true ↔ mode.packedLength count ≤ sizing.room v level mode := by
  have hdata := v.three_le_dataCodewords level
  have hcount := countBits_le mode v
  rcases sizing with _ | _
  · refine decide_eq_true_iff.trans ?_
    simp only [room]
    omega
  · refine decide_eq_true_iff.trans ?_
    simp only [room, segmentBits, Version.dataBits, Mode.indicatorBits]
    omega

/-- The room grows from one version to the next, also where a tier ends. -/
theorem room_lt_succ (sizing : Sizing) (level : Level) (mode : Mode) (h : w.number = v.number + 1) :
    sizing.room v level mode < sizing.room w level mode := by
  have hmore := Version.dataCodewords_add_le level h
  have hdata := v.three_le_dataCodewords level
  have hbefore := le_countBits mode v
  have hafter := countBits_le mode w
  rcases sizing with _ | _
  · simp only [room]
    omega
  · simp only [room, Version.dataBits, Mode.indicatorBits]
    omega

/-- **The room grows with the version.** -/
theorem room_strictMono (sizing : Sizing) (level : Level) (mode : Mode) :
    StrictMono fun i => sizing.room (.ofIndex i) level mode :=
  Fin.strictMono_iff_lt_succ.2 fun _ => room_lt_succ sizing level mode rfl

/-- A larger version never has less room. -/
theorem room_mono (sizing : Sizing) (level : Level) (mode : Mode) (h : v.number ≤ w.number) :
    sizing.room v level mode ≤ sizing.room w level mode := by
  have hindex : v.index ≤ w.index := Nat.sub_le_sub_right h 1
  have hroom := (room_strictMono sizing level mode).monotone hindex
  simpa only [Version.ofIndex_index] using hroom

/-- **More protection leaves less room.** -/
theorem room_anti (sizing : Sizing) (v : Version) (mode : Mode) {a b : Level} (h : a.index ≤ b.index) :
    sizing.room v b mode ≤ sizing.room v a mode := by
  have hdata := v.dataCodewords_anti h
  rcases sizing with _ | _
  · simp only [room]
    omega
  · simp only [room, Version.dataBits]
    omega

/-! ### The first version with room -/

/-- **What is found is the smallest version that fits.** -/
theorem smallestVersion_eq_ok_iff :
    sizing.smallestVersion level mode count = .ok v ↔ sizing.fits v level mode count = true ∧
      ∀ w : Version, w.number < v.number → sizing.fits w level mode count = false := by
  constructor
  · intro hv
    exact ⟨smallestVersion_fits hv, fun w hlt => not_fits_of_lt hv hlt⟩
  · rintro ⟨hfits, hleast⟩
    rcases smallestVersion_cases sizing level mode count with ⟨u, hu⟩ | hnone
    · rcases Nat.lt_trichotomy u.number v.number with hlt | heq | hgt
      · exact absurd (smallestVersion_fits hu) (Bool.eq_false_iff.1 (hleast u hlt))
      · rw [hu, Version.ext heq]
      · exact absurd hfits (Bool.eq_false_iff.1 (not_fits_of_lt hu hgt))
    · exact absurd hfits (Bool.eq_false_iff.1 (smallestVersion_eq_error_iff.1 hnone v))

/-- The number of the smallest version in which so many characters fit.  A search that
fails counts as above every version. -/
def smallestNumber (sizing : Sizing) (level : Level) (mode : Mode) (count : Nat) : ℕ∞ :=
  match sizing.smallestVersion level mode count with
  | .ok v => v.number
  | .error _ => ⊤

/-- The version that is found gives its number. -/
theorem smallestNumber_of_ok (h : sizing.smallestVersion level mode count = .ok v) :
    sizing.smallestNumber level mode count = v.number := by
  rw [smallestNumber, h]

/-- A search that fails counts as above every version. -/
theorem smallestNumber_of_error {e : Error} (h : sizing.smallestVersion level mode count = .error e) :
    sizing.smallestNumber level mode count = ⊤ := by
  rw [smallestNumber, h]

/-- The search ends with a number or a smaller one when a version up to it fits. -/
theorem smallestNumber_le_iff {n : Nat} :
    sizing.smallestNumber level mode count ≤ n ↔
      ∃ v : Version, v.number ≤ n ∧ sizing.fits v level mode count = true := by
  rcases smallestVersion_cases sizing level mode count with ⟨u, hu⟩ | hnone
  · rw [smallestNumber_of_ok hu, Nat.cast_le]
    constructor
    · intro hle
      exact ⟨u, hle, smallestVersion_fits hu⟩
    · rintro ⟨v, hle, hfits⟩
      refine le_trans (Nat.le_of_not_lt fun hlt => ?_) hle
      exact Bool.eq_false_iff.1 (not_fits_of_lt hu hlt) hfits
  · rw [smallestNumber_of_error hnone]
    constructor
    · intro hle
      exact absurd hle (not_le_of_gt (ENat.natCast_lt_top n))
    · rintro ⟨v, -, hfits⟩
      exact absurd hfits (Bool.eq_false_iff.1 (smallestVersion_eq_error_iff.1 hnone v))

/-- A search that accepts more versions ends no later. -/
theorem smallestNumber_le {sizing' : Sizing} {level' : Level} {mode' : Mode} {count' : Nat}
    (h : ∀ v, sizing.fits v level mode count = true → sizing'.fits v level' mode' count' = true) :
    sizing'.smallestNumber level' mode' count' ≤ sizing.smallestNumber level mode count := by
  rcases smallestVersion_cases sizing level mode count with ⟨u, hu⟩ | hnone
  · rw [smallestNumber_of_ok hu]
    exact smallestNumber_le_iff.2 ⟨u, Nat.le_refl _, h u (smallestVersion_fits hu)⟩
  · rw [smallestNumber_of_error hnone]
    exact le_top

/-- **What fits in a version fits in every larger one.** -/
theorem fits_of_le (hle : v.number ≤ w.number) (hfits : sizing.fits v level mode count = true) :
    sizing.fits w level mode count = true :=
  fits_iff.2 (le_trans (fits_iff.1 hfits) (room_mono sizing level mode hle))

/-- **The first version that fits is a threshold**: the versions that fit are those from it on. -/
theorem fits_iff_smallestNumber_le :
    sizing.fits v level mode count = true ↔ sizing.smallestNumber level mode count ≤ v.number := by
  rw [smallestNumber_le_iff]
  constructor
  · intro hfits
    exact ⟨v, Nat.le_refl _, hfits⟩
  · rintro ⟨u, hle, hfits⟩
    exact fits_of_le hle hfits

/-- How fitting, and with it the smallest version, depends on the version, the level and
the number of characters.  This number has no bound here; one whose packed bits 64 bits
cannot count belongs to no payload. -/
structure IsMonotone (sizing : Sizing) (mode : Mode) : Prop where
  /-- What fits in a version fits in every larger one, whatever the width of its count field. -/
  larger : ∀ {level count} {v w : Version}, v.number ≤ w.number →
    sizing.fits v level mode count = true → sizing.fits w level mode count = true
  /-- So the versions that fit are the smallest one and those above it. -/
  threshold : ∀ {level count} {v : Version},
    sizing.fits v level mode count = true ↔ sizing.smallestNumber level mode count ≤ v.number
  /-- More characters need a version at least as large. -/
  count : ∀ level, Monotone fun count => sizing.smallestNumber level mode count
  /-- So does more protection. -/
  level : ∀ {a b : Level}, a.index ≤ b.index →
    ∀ count, sizing.smallestNumber a mode count ≤ sizing.smallestNumber b mode count

/-- **Sizing is monotone**, under both rules and in every mode, and so is building: a
payload that builds in a forced version builds in every larger one. -/
theorem isMonotone :
    (∀ (sizing : Sizing) (mode : Mode), sizing.IsMonotone mode) ∧
    ∀ (s : Settings) (v w : Version), v.number ≤ w.number →
      (∃ q, { s with version := some v }.build = .ok q) →
        ∃ q, { s with version := some w }.build = .ok q := by
  constructor
  · intro sizing mode
    refine ⟨fits_of_le, fits_iff_smallestNumber_le, fun level a b hle => ?_, fun {a b} hle count => ?_⟩
    · refine smallestNumber_le fun v hfits => fits_iff.2 ?_
      exact le_trans (mode.packedLength_mono hle) (fits_iff.1 hfits)
    · refine smallestNumber_le fun v hfits => fits_iff.2 ?_
      exact le_trans (fits_iff.1 hfits) (room_anti sizing v mode hle)
  · intro s v w hle hbuild
    rw [Settings.exists_build_iff (Settings.chosenVersion_forced rfl)] at hbuild ⊢
    -- a payload fits when the exact rule accepts the version
    have hfits : exact.fits v s.level s.mode s.payload.length = true := decide_eq_true hbuild
    exact of_decide_eq_true (fits_of_le hle hfits)

/-- The letter `A` builds in the smallest version, so it builds in the largest. -/
theorem isMonotone_letter :
    ∃ q, Settings.build { payload := [0x41], version := some (.ofIndex 39) } = .ok q :=
  isMonotone.2 { payload := [0x41] } (.ofIndex 0) (.ofIndex 39) (by decide)
    ((Settings.exists_build_iff (Settings.chosenVersion_forced rfl)).2 (by decide))

end Sizing
end QRCode
