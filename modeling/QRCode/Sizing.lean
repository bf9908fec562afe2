/-
# The smallest version that fits

`Sizing::fits` and `find_version`.

A sizing rule says when a payload fits in a version: `conservative` compares whole
codewords and keeps three of them spare, `exact` counts the bits of the segment.
The version for a payload is the first of the forty that the rule accepts.

| rule | a version with `D` data codewords fits `b` packed bits when |
| --- | --- |
| `conservative` | `⌈b / 8⌉ + 3 ≤ D` |
| `exact` | `4 + (width of the count field) + b ≤ 8 D` |
-/

import QRCode.Mode
import QRCode.Version.Capacity

namespace QRCode

/-- A rule for choosing the version of a payload. -/
inductive Sizing where
  | conservative
  | exact
  deriving DecidableEq

namespace Sizing

/-- The name of the rule. -/
def name : Sizing → String
  | conservative => "Conservative"
  | exact => "Exact"

/-- The number of bits of a segment with so many characters. -/
def segmentBits (mode : Mode) (v : Version) (count : Nat) : Nat :=
  Mode.indicatorBits + mode.countBits v + mode.packedLength count

/-- Whether so many characters fit in a version at a level (`Sizing::fits`). -/
def fits (sizing : Sizing) (v : Version) (level : Level) (mode : Mode) (count : Nat) : Bool :=
  match sizing with
  | conservative => (mode.packedLength count + 7) / 8 + 3 ≤ v.dataCodewords level
  | exact => segmentBits mode v count ≤ v.dataBits level

/-- The smallest version in which so many characters fit (`find_version`). -/
def smallestVersion (sizing : Sizing) (level : Level) (mode : Mode) (count : Nat) :
    Except Error Version :=
  match Version.all.find? (sizing.fits · level mode count) with
  | some v => .ok v
  | none => .error .capacityExceeded

/-- A version that is found fits. -/
theorem smallestVersion_fits {sizing : Sizing} {level : Level} {mode : Mode} {count : Nat} {v : Version}
    (h : smallestVersion sizing level mode count = .ok v) : sizing.fits v level mode count = true := by
  unfold smallestVersion at h
  split at h
  · rename_i w hw
    obtain rfl := Except.ok.inj h
    exact List.find?_some (p := fun v => sizing.fits v level mode count) hw
  · cases h

/-- **The search fails exactly when no version fits.** -/
theorem smallestVersion_eq_error_iff {sizing : Sizing} {level : Level} {mode : Mode} {count : Nat} :
    smallestVersion sizing level mode count = .error .capacityExceeded ↔
      ∀ v : Version, sizing.fits v level mode count = false := by
  unfold smallestVersion
  split
  · rename_i w hw
    have hfit := List.find?_some (p := fun v => sizing.fits v level mode count) hw
    constructor
    · intro h; cases h
    · intro h; rw [h w] at hfit; cases hfit
  · rename_i hnone
    rw [List.find?_eq_none] at hnone
    exact ⟨fun _ v => by simpa using hnone v (Version.mem_all v), fun _ => rfl⟩

end Sizing
end QRCode
