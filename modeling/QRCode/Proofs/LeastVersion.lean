/-
# The least version for a payload

`encode` with either rule, against `encode_with_version` in every version.

The exact rule counts the bits that encoding writes, so it accepts the versions in which
encoding succeeds and no others (`exists_encodeIn_iff`), and the version that it finds is
the least of these.  The conservative rule counts whole codewords and keeps three spare.
These cover a header in every tier, so it leaves less room in the same version, and less
than a version adds, so the next version has room enough:

    conservative room of v  ≤  exact room of v  ≤  conservative room of v + 1

Hence the conservative rule chooses the same version or the next one, and fails alone only
where there is no next one (`choosesLeast`).
-/

import QRCode.Proofs.Room

namespace QRCode

variable {v w : Version} {level : Level} {mode : Mode} {payload : List UInt8}

/-! ### The two rules -/

namespace Sizing

variable {count : Nat}

/-- Three codewords cover a header. -/
theorem room_conservative_le (v : Version) (level : Level) (mode : Mode) :
    conservative.room v level mode ≤ exact.room v level mode := by
  have hcount := countBits_le mode v
  simp only [room, Version.dataBits, Mode.indicatorBits]
  omega

/-- A version adds more than three codewords. -/
theorem room_exact_le (level : Level) (mode : Mode) (h : w.number = v.number + 1) :
    exact.room v level mode ≤ conservative.room w level mode := by
  have hmore := Version.dataCodewords_add_le level h
  simp only [room, Version.dataBits, Mode.indicatorBits]
  omega

/-- What fits conservatively fits exactly. -/
theorem fits_exact (h : conservative.fits v level mode count = true) :
    exact.fits v level mode count = true :=
  fits_iff.2 (le_trans (fits_iff.1 h) (room_conservative_le v level mode))

/-- **What fits exactly fits conservatively in the next version.** -/
theorem fits_conservative (hnext : w.number = v.number + 1) (h : exact.fits v level mode count = true) :
    conservative.fits w level mode count = true :=
  fits_iff.2 (le_trans (fits_iff.1 h) (room_exact_le level mode hnext))

/-- **The conservative rule is at most one version behind.** -/
theorem smallestNumber_conservative_le (hexact : exact.smallestVersion level mode count = .ok v)
    (hlt : v.number < 40) : conservative.smallestNumber level mode count ≤ (v.number + 1 : Nat) := by
  have hfits := fits_conservative (w := ⟨v.number + 1, by omega, hlt⟩) rfl (smallestVersion_fits hexact)
  exact smallestNumber_le_iff.2 ⟨_, Nat.le_refl _, hfits⟩

end Sizing

/-! ### Encoding -/

/-- **A payload is encoded in the versions that the exact rule accepts**, and in no others. -/
theorem exists_encodeIn_iff (h : ∀ b ∈ payload, mode.contains b = true) :
    (∃ s, (encodeIn v level mode payload).result = .ok s) ↔
      Sizing.exact.fits v level mode payload.length = true := by
  rw [encodeIn_eq h, show Sizing.exact.fits v level mode payload.length = true ↔ _ from decide_eq_true_iff]
  split
  · rename_i hfit
    exact ⟨fun _ => hfit, fun _ => ⟨_, rfl⟩⟩
  · rename_i hlong
    refine ⟨?_, fun hfit => absurd hfit hlong⟩
    rintro ⟨s, hs⟩
    split at hs <;> cases hs

/-- Encoding in the smallest version is a search, then encoding in the version found. -/
theorem encodeFitting_result (sizing : Sizing) (level : Level) (payload : List UInt8) :
    (encodeFitting sizing level payload).result = (do
      let v ← sizing.smallestVersion level (.select payload) payload.length
      let codewords ← (encodeIn v level (.select payload) payload).result
      return ⟨v, .select payload, codewords⟩) :=
  Settings.encode_result { payload, level, sizing }

/-- A payload is encoded in the version that is found. -/
theorem encodeFitting_of_ok {sizing : Sizing} {s : BitString}
    (hv : sizing.smallestVersion level (.select payload) payload.length = .ok v)
    (hs : (encodeIn v level (.select payload) payload).result = .ok s) :
    (encodeFitting sizing level payload).result = .ok ⟨v, .select payload, s⟩ := by
  rw [encodeFitting_result, hv]
  show (encodeIn v level (.select payload) payload).result >>= _ = _
  rw [hs]
  rfl

/-- Without a version there is nothing to encode. -/
theorem encodeFitting_of_error {sizing : Sizing} {e : Error}
    (hv : sizing.smallestVersion level (.select payload) payload.length = .error e) :
    (encodeFitting sizing level payload).result = .error e := by
  rw [encodeFitting_result, hv]
  rfl

/-- **Both rules are sound**: a payload is encoded in the version that is found for it. -/
theorem exists_encodeIn_of_smallestVersion {sizing : Sizing}
    (hv : sizing.smallestVersion level (.select payload) payload.length = .ok v) :
    ∃ s, (encodeIn v level (.select payload) payload).result = .ok s := by
  have hfits := Sizing.segmentBits_le_of_fits (Sizing.smallestVersion_fits hv)
  exact (exists_encodeIn_iff (Mode.contains_select payload)).2 (decide_eq_true hfits)

/-- A payload is not encoded in the versions that the exact rule refuses. -/
theorem encodeIn_ne_ok_iff :
    (∀ s, (encodeIn v level (.select payload) payload).result ≠ .ok s) ↔
      Sizing.exact.fits v level (.select payload) payload.length = false := by
  rw [← not_exists, exists_encodeIn_iff (Mode.contains_select payload), Bool.not_eq_true]

/-- How versions are chosen for a payload at a level. -/
structure ChoosesLeast (level : Level) (payload : List UInt8) : Prop where
  /-- Under both rules, the payload is encoded in the version that is found. -/
  sound : ∀ (sizing : Sizing) (v : Version),
    sizing.smallestVersion level (.select payload) payload.length = .ok v →
      ∃ s, (encodeIn v level (.select payload) payload).result = .ok s ∧
        (encodeFitting sizing level payload).result = .ok ⟨v, .select payload, s⟩
  /-- Under the exact rule, this is the least version in which it can be encoded. -/
  least : ∀ e : Encoded, (encodeFitting .exact level payload).result = .ok e ↔
    e.mode = .select payload ∧
      (encodeIn e.version level (.select payload) payload).result = .ok e.codewords ∧
      ∀ w : Version, w.number < e.version.number →
        ∀ s, (encodeIn w level (.select payload) payload).result ≠ .ok s
  /-- It fails only when there is none. -/
  fails : ∀ e : Error, (encodeFitting .exact level payload).result = .error e ↔
    e = .capacityExceeded ∧
      ∀ (v : Version) (s : BitString), (encodeIn v level (.select payload) payload).result ≠ .ok s
  /-- The exact rule never finds a larger version than the conservative one. -/
  le : Sizing.exact.smallestNumber level (.select payload) payload.length ≤
    Sizing.conservative.smallestNumber level (.select payload) payload.length
  /-- The conservative rule never finds a version more than one above. -/
  close : ∀ v w : Version, Sizing.exact.smallestVersion level (.select payload) payload.length = .ok v →
    Sizing.conservative.smallestVersion level (.select payload) payload.length = .ok w →
      w.number ≤ v.number + 1
  /-- It fails alone only when the exact rule finds the largest version. -/
  last : ∀ (v : Version) (e : Error),
    Sizing.exact.smallestVersion level (.select payload) payload.length = .ok v →
    Sizing.conservative.smallestVersion level (.select payload) payload.length = .error e →
      v.number = 40

/-- **Sizing is sound and the exact rule optimal**, for every payload at every level; the
conservative rule is never more than one version behind. -/
theorem choosesLeast (level : Level) (payload : List UInt8) : ChoosesLeast level payload where
  sound sizing v hv := by
    obtain ⟨s, hs⟩ := exists_encodeIn_of_smallestVersion hv
    exact ⟨s, hs, encodeFitting_of_ok hv hs⟩
  least e := by
    have hbytes := Mode.contains_select payload
    constructor
    · intro he
      rcases Sizing.smallestVersion_cases .exact level (.select payload) payload.length with ⟨v, hv⟩ | hnone
      · obtain ⟨s, hs⟩ := exists_encodeIn_of_smallestVersion hv
        rw [encodeFitting_of_ok hv hs] at he
        obtain rfl := Except.ok.inj he
        exact ⟨rfl, hs, fun w hlt => encodeIn_ne_ok_iff.2 (Sizing.not_fits_of_lt hv hlt)⟩
      · rw [encodeFitting_of_error hnone] at he
        cases he
    · rintro ⟨hmode, hs, hleast⟩
      have hfits := (exists_encodeIn_iff hbytes).1 ⟨e.codewords, hs⟩
      have hv := Sizing.smallestVersion_eq_ok_iff.2
        ⟨hfits, fun w hlt => encodeIn_ne_ok_iff.1 (hleast w hlt)⟩
      rw [encodeFitting_of_ok hv hs, ← hmode]
  fails e := by
    constructor
    · intro he
      rcases Sizing.smallestVersion_cases .exact level (.select payload) payload.length with ⟨v, hv⟩ | hnone
      · obtain ⟨s, hs⟩ := exists_encodeIn_of_smallestVersion hv
        rw [encodeFitting_of_ok hv hs] at he
        cases he
      · rw [encodeFitting_of_error hnone] at he
        obtain rfl := Except.error.inj he
        exact ⟨rfl, fun v => encodeIn_ne_ok_iff.2 (Sizing.smallestVersion_eq_error_iff.1 hnone v)⟩
    · rintro ⟨rfl, hnone⟩
      exact encodeFitting_of_error
        (Sizing.smallestVersion_eq_error_iff.2 fun v => encodeIn_ne_ok_iff.1 (hnone v))
  le := Sizing.smallestNumber_le fun _ => Sizing.fits_exact
  close v w hexact hconservative := by
    rcases Nat.lt_or_ge v.number 40 with hlt | hge
    · have hle := Sizing.smallestNumber_conservative_le hexact hlt
      rwa [Sizing.smallestNumber_of_ok hconservative, Nat.cast_le] at hle
    · have := w.le_forty
      omega
  last v e hexact herror := by
    by_contra hne
    have hle := Sizing.smallestNumber_conservative_le hexact (Nat.lt_of_le_of_ne v.le_forty hne)
    rw [Sizing.smallestNumber_of_error herror] at hle
    exact absurd hle (not_le_of_gt (ENat.natCast_lt_top _))

/-- Both differences occur: seventeen bytes need the next version with spare codewords, and
7089 digits fit in the largest version only without. -/
example :
    Sizing.exact.smallestVersion .low .byte 17 = .ok (.ofIndex 0) ∧
    Sizing.conservative.smallestVersion .low .byte 17 = .ok (.ofIndex 1) ∧
    Sizing.exact.smallestVersion .low .numeric 7089 = .ok (.ofIndex 39) ∧
    Sizing.conservative.smallestVersion .low .numeric 7089 = .error .capacityExceeded :=
  ⟨rfl, rfl, Sizing.smallestVersion_eq_ok_iff.2 (by decide),
    Sizing.smallestVersion_eq_error_iff.2 (by decide)⟩

end QRCode
