/-
# How a build ends

`QRBuilder::build`, for all settings.

Whether a build succeeds is decided by lengths alone, before anything is drawn:

| version | succeeds when | otherwise |
| --- | --- | --- |
| forced | `4 + (width of the count field) + b ≤ 8 D` | `countOverflow` or `capacityExceeded` |
| left out | the sizing rule accepts some version | `capacityExceeded` |

with `b` packed bits and `D` data codewords, and `countOverflow` exactly when the number
of characters does not fit in the count field.  No other error is ever the answer, and
no step of a build is without meaning (`Settings.outcome`).  The length of a payload is
a number without a bound here; one that 64 bits cannot count fits in no memory.
-/

import QRCode.Proofs.Checked.Building

namespace QRCode

namespace Sizing

variable {sizing : Sizing} {level : Level} {mode : Mode} {count : Nat} {v : Version}

/-- Versions are listed by increasing number. -/
theorem pairwise_all : Version.all.Pairwise fun v w => v.number < w.number := by decide

/-- **No version before the one that is found fits.** -/
theorem not_fits_of_lt (h : sizing.smallestVersion level mode count = .ok v) {w : Version}
    (hlt : w.number < v.number) : sizing.fits w level mode count = false := by
  unfold smallestVersion at h
  split at h
  · rename_i u hu
    obtain rfl := Except.ok.inj h
    obtain ⟨-, before, after, hall, hbefore⟩ := List.find?_eq_some_iff_append.1 hu
    have hsorted := hall ▸ pairwise_all
    have hw : w ∈ before ++ u :: after := hall ▸ Version.mem_all w
    rcases List.mem_append.1 hw with hw | hw
    · simpa using hbefore w hw
    · rcases List.mem_cons.1 hw with rfl | hw
      · omega
      · have := (List.pairwise_cons.1 (List.pairwise_append.1 hsorted).2.1).1 w hw
        omega
  · cases h

/-- The search answers with a version or with `capacityExceeded`. -/
theorem smallestVersion_cases (sizing : Sizing) (level : Level) (mode : Mode) (count : Nat) :
    (∃ v, sizing.smallestVersion level mode count = .ok v) ∨
      sizing.smallestVersion level mode count = .error .capacityExceeded := by
  unfold smallestVersion
  split
  · exact .inl ⟨_, rfl⟩
  · exact .inr rfl

end Sizing

namespace Settings

variable {s : Settings} {v : Version} {q : Symbol}

/-- What a symbol owes to its settings. -/
structure Honours (s : Settings) (q : Symbol) : Prop where
  /-- A forced version is kept. -/
  forced : ∀ v, s.version = some v → q.version = v
  /-- Without one, the version is the first that the sizing rule accepts. -/
  first : s.version = none →
    s.sizing.fits q.version s.level s.mode s.payload.length = true ∧
      ∀ w : Version, w.number < q.version.number →
        s.sizing.fits w s.level s.mode s.payload.length = false
  /-- The level is kept. -/
  level : q.level = s.level
  /-- A forced mask is kept. -/
  mask : ∀ m, s.mask = some m → q.mask = m

/-- How a build ends. -/
structure Outcome (s : Settings) : Prop where
  /-- With a forced version one inequality decides. -/
  forced_ok : ∀ v, s.version = some v →
    ((∃ q, s.build = .ok q) ↔
      4 + s.mode.countBits v + s.mode.packedLength s.payload.length ≤ 8 * v.dataCodewords s.level)
  /-- A payload that does not fit in it has too many characters to count, or is too long. -/
  forced_error : ∀ v, s.version = some v →
    ¬4 + s.mode.countBits v + s.mode.packedLength s.payload.length ≤ 8 * v.dataCodewords s.level →
    s.build = .error (if 2 ^ s.mode.countBits v ≤ s.payload.length then
      .countOverflow s.payload.length (s.mode.countBits v) else .capacityExceeded)
  /-- Without a forced version the sizing rule decides. -/
  automatic_ok : s.version = none →
    ((∃ q, s.build = .ok q) ↔
      ∃ v, s.sizing.fits v s.level s.mode s.payload.length = true)
  /-- A payload that it accepts in no version is too long. -/
  automatic_error : s.version = none →
    (¬∃ v, s.sizing.fits v s.level s.mode s.payload.length = true) →
    s.build = .error .capacityExceeded
  /-- No other error is the answer. -/
  errors : ∀ e, s.build = .error e →
    e = .capacityExceeded ∨
      ∃ v, s.version = some v ∧ e = .countOverflow s.payload.length (s.mode.countBits v)
  /-- Every symbol has what the settings ask for. -/
  honours : ∀ q, s.build = .ok q → s.Honours q
  /-- Tests before every step change nothing: none of them fails, and no coordinate lies beyond the
  edges. -/
  checked : s.checkedBuild = Checked.lift s.build

/-- **In the version that is chosen, fitting decides.** -/
theorem exists_build_iff (hv : s.chosenVersion = .ok v) : (∃ q, s.build = .ok q) ↔ s.Fits v := by
  constructor
  · rintro ⟨q, hq⟩
    by_contra hfit
    rw [build_of_not_fits hv hfit] at hq
    cases hq
  · intro hfit
    obtain ⟨plan, m, hbuild, -⟩ := build_of_fits hv hfit
    exact ⟨_, hbuild⟩

/-- A forced version is chosen. -/
theorem chosenVersion_forced (h : s.version = some v) : s.chosenVersion = .ok v := by
  rw [chosenVersion, h]

/-- A version that is left out is searched for. -/
theorem chosenVersion_automatic (h : s.version = none) :
    s.chosenVersion = s.sizing.smallestVersion s.level s.mode s.payload.length := by
  rw [chosenVersion, h]

/-- **A symbol has what its settings ask for.** -/
theorem honours_of_build (h : s.build = .ok q) : s.Honours q := by
  obtain ⟨v, plan, m, hbuilt, rfl⟩ := exists_built h
  have hv := hbuilt.version
  refine ⟨fun w hw => ?_, fun hauto => ?_, rfl, hbuilt.mask⟩
  · rw [chosenVersion_forced hw] at hv
    exact (Except.ok.inj hv).symm
  · rw [chosenVersion_automatic hauto] at hv
    exact ⟨Sizing.smallestVersion_fits hv, fun w hlt => Sizing.not_fits_of_lt hv hlt⟩

/-- Without a forced version, a build succeeds or no version fits. -/
theorem build_automatic (h : s.version = none) :
    ((∃ v, s.sizing.fits v s.level s.mode s.payload.length = true) ∧ ∃ q, s.build = .ok q) ∨
      (¬∃ v, s.sizing.fits v s.level s.mode s.payload.length = true) ∧
        s.build = .error .capacityExceeded := by
  have hchosen := chosenVersion_automatic h
  rcases Sizing.smallestVersion_cases s.sizing s.level s.mode s.payload.length with ⟨v, hv⟩ | hv
  · have hok := hchosen.trans hv
    exact .inl ⟨⟨v, Sizing.smallestVersion_fits hv⟩, (exists_build_iff hok).2 (fits_of_chosen hok h)⟩
  · refine .inr ⟨?_, build_of_no_version (hchosen.trans hv)⟩
    rintro ⟨v, hfits⟩
    rw [Sizing.smallestVersion_eq_error_iff.1 hv v] at hfits
    cases hfits

/-- **Only the length of a payload makes a build fail.** -/
theorem error_cases {e : Error} (h : s.build = .error e) :
    e = .capacityExceeded ∨
      ∃ v, s.version = some v ∧ e = .countOverflow s.payload.length (s.mode.countBits v) := by
  cases hversion : s.version with
  | none =>
    rcases build_automatic hversion with ⟨-, q, hq⟩ | ⟨-, herror⟩
    · rw [hq] at h
      cases h
    · rw [herror] at h
      exact .inl (Except.error.inj h).symm
  | some v =>
    have hchosen := chosenVersion_forced hversion
    by_cases hfit : s.Fits v
    · obtain ⟨q, hq⟩ := (exists_build_iff hchosen).2 hfit
      rw [hq] at h
      cases h
    · rw [build_of_not_fits hchosen hfit] at h
      obtain rfl := Except.error.inj h
      split
      · exact .inr ⟨v, rfl, rfl⟩
      · exact .inl rfl

/-- **The exact outcome of a build**, for every payload and all settings. -/
theorem outcome (s : Settings) : s.Outcome where
  forced_ok v hv := exists_build_iff (chosenVersion_forced hv)
  forced_error v hv hfit := build_of_not_fits (chosenVersion_forced hv) hfit
  automatic_ok hauto := by
    rcases build_automatic hauto with ⟨hfits, hok⟩ | ⟨hnone, herror⟩
    · exact ⟨fun _ => hfits, fun _ => hok⟩
    · refine ⟨?_, fun hfits => absurd hfits hnone⟩
      rintro ⟨q, hq⟩
      rw [herror] at hq
      cases hq
  automatic_error hauto hnone := by
    rcases build_automatic hauto with ⟨hfits, -⟩ | ⟨-, herror⟩
    · exact absurd hfits hnone
    · exact herror
  errors e he := error_cases he
  honours q hq := honours_of_build hq
  checked := checkedBuild_eq s

end Settings
end QRCode
