/-
# Choices left open

`QRBuilder::version` and `QRBuilder::mask`, set or left open.

A version or a mask that is left open is chosen by the build.  What a build makes of
given choices depends on the settings only through the chosen version and mask
(`Settings.Built.build_eq`), so asking for what was chosen gives the same symbol
(`Settings.Built.forceVersion`, `Settings.Built.forceMask`).  Which version a build
ends with, or which error, does not depend on the mask at all
(`Settings.map_version_build`).
-/

import QRCode.Proofs.Outcome

namespace QRCode
namespace Settings

variable {s : Settings} {v : Version} {plan : BlockPlan} {m : Mask} {q : Symbol}

/-! ### From choices to the symbol -/

/-- A build ends with one mask only. -/
theorem Built.mask_unique {m' : Mask} (h : s.Built v plan m) (h' : s.Built v plan m') : m = m' := by
  cases hforced : s.mask with
  | some forced => rw [h.mask forced hforced, h'.mask forced hforced]
  | none => exact (h.best hforced).unique (h'.best hforced)

/-- **The choices determine the symbol.** -/
theorem Built.build_eq (h : s.Built v plan m) : s.build = .ok (s.symbol v plan m) := by
  obtain ⟨plan', m', hbuild, hbuilt⟩ := build_of_fits h.version h.fits
  obtain rfl : plan = plan' := Except.ok.inj (h.plan.symm.trans hbuilt.plan)
  rw [hbuild, h.mask_unique hbuilt]

/-- The version that was chosen may as well be asked for. -/
theorem Built.forceVersion (h : s.Built v plan m) : { s with version := some v }.Built v plan m where
  version := rfl
  fits := h.fits
  plan := h.plan
  mask := h.mask
  best := h.best

/-- Every mask may be asked for. -/
theorem Built.forceMask (h : s.Built v plan m) (forced : Mask) :
    { s with mask := some forced }.Built v plan forced where
  version := h.version
  fits := h.fits
  plan := h.plan
  mask _ heq := Option.some.inj heq
  best := nofun

/-! ### The version or the error -/

/-- **The version of a build, or its error**, in terms of the chosen version alone. -/
theorem map_version_build (s : Settings) :
    s.build.map Symbol.version = (do
      let v ← s.chosenVersion
      if s.Fits v then .ok v
      else .error (if 2 ^ s.mode.countBits v ≤ s.payload.length then
        .countOverflow s.payload.length (s.mode.countBits v) else .capacityExceeded)) := by
  cases hv : s.chosenVersion with
  | error e =>
    rw [build_of_no_version hv]
    rfl
  | ok v =>
    show _ = if s.Fits v then _ else _
    split
    · rename_i hfit
      obtain ⟨plan, m, hbuild, -⟩ := build_of_fits hv hfit
      rw [hbuild]
      rfl
    · rename_i hfit
      rw [build_of_not_fits hv hfit]
      rfl

/-- Forcing a mask changes neither the version nor the error of a build. -/
theorem map_version_forceMask (s : Settings) (m : Mask) :
    { s with mask := some m }.build.map Symbol.version = s.build.map Symbol.version := by
  rw [map_version_build, map_version_build]
  rfl

/-! ### Agreement -/

/-- **Automatic choices agree with forced ones.**  Asking for the version of an
automatic symbol, for its mask or for both gives the same symbol again; no mask gives
a symbol with a lower penalty, and every lower mask gives one with a higher penalty.
For all settings, asking for a mask changes neither whether a symbol is built, nor its
version, nor the error. -/
theorem build_agrees (s : Settings) :
    (∀ q, s.version = none → s.mask = none → s.build = .ok q →
      { s with version := some q.version }.build = .ok q ∧
      { s with mask := some q.mask }.build = .ok q ∧
      { s with version := some q.version, mask := some q.mask }.build = .ok q ∧
      ∀ m, ∃ q', { s with mask := some m }.build = .ok q' ∧ penalty q.grid ≤ penalty q'.grid ∧
        (m.index < q.mask.index → penalty q.grid < penalty q'.grid)) ∧
    ∀ m, { s with mask := some m }.build.map Symbol.version = s.build.map Symbol.version := by
  refine ⟨?_, map_version_forceMask s⟩
  intro q _ hmask hq
  obtain ⟨v, plan, best, hbuilt, rfl⟩ := exists_built hq
  have hbest := hbuilt.best hmask
  refine ⟨hbuilt.forceVersion.build_eq, (hbuilt.forceMask best).build_eq,
    (hbuilt.forceVersion.forceMask best).build_eq, fun m => ?_⟩
  exact ⟨_, (hbuilt.forceMask m).build_eq, hbest.le m m.mem_all, hbest.lt m m.mem_all⟩

/-- The symbol of the letter `A` is built again from its version and its mask, and has
the lowest penalty. -/
theorem build_agrees_letter :
    ∃ q, build { payload := [0x41] } = .ok q ∧
      build { payload := [0x41], version := some q.version, mask := some q.mask } = .ok q ∧
      ∀ m, ∃ q', build { payload := [0x41], mask := some m } = .ok q' ∧
        penalty q.grid ≤ penalty q'.grid := by
  obtain ⟨plan, m, hbuild, -⟩ := build_of_fits (s := { payload := [0x41] }) (v := .ofIndex 0) rfl (by decide)
  obtain ⟨-, -, hboth, hall⟩ := (build_agrees { payload := [0x41] }).1 _ rfl rfl hbuild
  refine ⟨_, hbuild, hboth, fun m => ?_⟩
  obtain ⟨q', hq', hle, -⟩ := hall m
  exact ⟨q', hq', hle⟩

end Settings
end QRCode
