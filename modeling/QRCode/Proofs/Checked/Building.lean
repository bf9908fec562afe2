/-
# Building with every precondition checked

`QRBuilder::build`, with all that could break it off.

A build whose stages are the checked ones: the choice of a version, encoding,
protecting, drawing, masking, and the numbers that are reported at the end.  For all
settings it does what the build does, so no step of a build is ever without meaning
(`checkedBuild_eq`).  What is not tested is that the length of the payload, and of the
packed payload, can be counted: for fewer than `2 ^ 60` bytes 64 bits are enough.
-/

import QRCode.Proofs.Building
import QRCode.Proofs.Checked.Blocks
import QRCode.Proofs.Checked.Drawing

namespace QRCode
namespace Checked

/-- The first version of a list that fits (`find_version`). -/
def firstFit (sizing : Sizing) (level : Level) (mode : Mode) (count : Nat) : List Version → Checked Version
  | [] => throw .capacityExceeded
  | v :: rest => do
    let _ ← sub v.totalCodewords (v.ecCodewords level)
    if sizing.fits v level mode count then pure v
    else firstFit sizing level mode count rest

/-- The version of a build. -/
def chosenVersion (s : Settings) : Checked Version :=
  match s.version with
  | some v => pure v
  | none => firstFit s.sizing s.level s.mode s.payload.length Version.all

/-- A draft masked as the settings say. -/
def finish (s : Settings) (d : Draft) : Checked Symbol :=
  match s.mask with
  | some m => do toSymbol (← applyMask d m)
  | none => selectMask d

/-- The numbers that are reported of a symbol (`QRBuilder::ec_capacity`, `QR::count_dark_modules`). -/
def report (level : Level) (q : Symbol) : Checked Unit := do
  let _ ← sub q.version.totalCodewords (q.version.ecCodewords level)
  let _ ← sub (q.version.ecCodewords level) (q.version.misreadReserve level)
  let _ ← sub (q.width * q.width) q.darkCount
  require (q.width * q.width ≠ 0) .division

/-- The search for a version has no faults. -/
theorem firstFit_eq (sizing : Sizing) (level : Level) (mode : Mode) (count : Nat)
    (versions : List Version) :
    firstFit sizing level mode count versions =
      lift (match versions.find? (sizing.fits · level mode count) with
        | some v => .ok v
        | none => .error .capacityExceeded) := by
  induction versions with
  | nil => rfl
  | cons v versions ih =>
    rw [firstFit, sub_eq (Nat.le_of_lt (v.ecCodewords_lt_total level)), pure_bind, List.find?_cons]
    cases sizing.fits v level mode count with
    | false => exact ih
    | true => rfl

/-- Nor has the choice between a forced version and a search. -/
theorem chosenVersion_eq (s : Settings) : chosenVersion s = lift s.chosenVersion := by
  unfold chosenVersion Settings.chosenVersion
  cases s.version with
  | none => exact firstFit_eq _ _ _ _ _
  | some v => rfl

/-- A draft is finished without faults, by one mask or by the best. -/
theorem finish_eq (s : Settings) (d : Draft) : finish s d = lift (s.finish d).result := by
  unfold finish Settings.finish
  cases s.mask with
  | none => exact selectMask_eq d
  | some m =>
    dsimp only
    rw [applyMask_eq, pure_bind, toSymbol_eq, Traced.emit_bind]
    rfl

/-- What is reserved against misreading is there to be reserved. -/
theorem misreadReserve_le (v : Version) (level : Level) :
    v.misreadReserve level ≤ v.ecCodewords level := by
  revert v; cases level <;> decide

/-- **Reporting has no faults**, for any symbol. -/
theorem report_eq (level : Level) (q : Symbol) : report level q = pure () := by
  have hw : 21 ≤ q.width ∧ q.width ≤ 177 := q.version.width_bounds
  have hdark : q.darkCount ≤ q.width * q.width := by
    have hlength : q.grid.toList.length = q.width * q.width := q.grid.length_toList
    rw [← hlength]
    exact List.countP_le_length
  have hpos : q.width * q.width ≠ 0 := Nat.ne_of_gt (Nat.mul_pos (by omega) (by omega))
  rw [report, sub_eq (Nat.le_of_lt (q.version.ecCodewords_lt_total level)), pure_bind,
    sub_eq (misreadReserve_le q.version level), pure_bind, sub_eq hdark, pure_bind, require_eq hpos]

end Checked

namespace Settings

/-- A build that tests before every step whether it has a meaning (`QRBuilder::build`). -/
def checkedBuild (s : Settings) : Checked Symbol := do
  let v ← Checked.chosenVersion s
  let codewords ← Checked.encodeIn v s.level s.mode s.payload
  let bits ← Checked.protect v s.level codewords.bytes.toList
  let draft ← Checked.draw v s.level bits
  let q ← Checked.finish s draft
  Checked.report s.level q
  return q

/-- **No step of a build is without meaning**: with a test before every step, a build
still ends with the same symbol or the same error, for all settings. -/
theorem checkedBuild_eq (s : Settings) : s.checkedBuild = Checked.lift s.build := by
  rw [checkedBuild, build_eq, Checked.chosenVersion_eq]
  refine Checked.lift_bind fun v _ => ?_
  rw [Checked.encodeIn_eq]
  refine Checked.lift_bind fun codewords _ => ?_
  rw [Checked.protect_eq]
  refine Checked.lift_bind fun bits _ => ?_
  rw [Checked.draw_eq]
  refine Checked.lift_bind fun draft _ => ?_
  rw [Checked.finish_eq]
  cases (s.finish draft).result with
  | error e => rfl
  | ok q => rw [Checked.lift_ok, pure_bind, Checked.report_eq, pure_bind]

end Settings
end QRCode
