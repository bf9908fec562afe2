/-
# The anatomy of a build

`QRBuilder::build`, stage by stage.

A build chooses a version, encodes, protects, draws and masks.  Once the version is
chosen, one inequality decides (`segmentBits ≤ dataBits`): a payload that fits goes
through all the stages without an error, and the symbol is drawn from the arranged
blocks of its data codewords (`build_of_fits`); a payload that does not fit is
refused by the encoder (`build_of_not_fits`).  So every symbol that a build returns is

    drawnSymbol v level (the arranged blocks of the data codewords, as bits) m

for the chosen version `v` and a mask `m`, the mask of the settings or the best of all
(`exists_built`).
-/

import QRCode.Proofs.BestMask
import QRCode.Proofs.Reading
import QRCode.Settings

namespace QRCode

namespace Settings

variable {s : Settings} {v : Version} {m : Mask} {q : Symbol}

/-! ### The choices of a build -/

/-- The mode of the payload. -/
def mode (s : Settings) : Mode := Mode.select s.payload

/-- The mode of the settings has all bytes of the payload. -/
theorem contains_mode (s : Settings) : ∀ b ∈ s.payload, s.mode.contains b = true :=
  Mode.contains_select s.payload

/-- The version of a build: the one of the settings, or the first that fits. -/
def chosenVersion (s : Settings) : Except Error Version :=
  match s.version with
  | some v => .ok v
  | none => s.sizing.smallestVersion s.level s.mode s.payload.length

/-- The bits of the segment of the payload in a version. -/
def segmentBits (s : Settings) (v : Version) : Nat := Sizing.segmentBits s.mode v s.payload.length

/-- Whether the payload fits in the data codewords of a version. -/
def Fits (s : Settings) (v : Version) : Prop := s.segmentBits v ≤ v.dataBits s.level

instance : Decidable (s.Fits v) := inferInstanceAs (Decidable (_ ≤ _))

/-- The data codewords of the payload in a version. -/
def dataBytes (s : Settings) (v : Version) : List UInt8 :=
  (BitString.ofBits (dataStream v s.level s.mode s.payload)).bytes.toList

/-- The bits of a symbol of the settings: the arranged blocks of its data. -/
def symbolBits (s : Settings) (v : Version) (plan : BlockPlan) : List Bool :=
  (arrange (plan.blocks (s.dataBytes v))).flatMap byteBits

/-- The symbol of the settings in a version with a mask. -/
def symbol (s : Settings) (v : Version) (plan : BlockPlan) (m : Mask) : Symbol :=
  drawnSymbol v s.level (s.symbolBits v plan) m

/-- **The data codewords are the bits of the terminated segment.** -/
theorem flatMap_dataBytes (h : s.Fits v) :
    (s.dataBytes v).flatMap byteBits = dataStream v s.level s.mode s.payload := by
  have hlen : (BitString.ofBits (dataStream v s.level s.mode s.payload)).length % 8 = 0 := by
    rw [BitString.length_ofBits, length_dataStream h]
    omega
  obtain ⟨hwf, hbits⟩ := BitString.wellFormed_ofBits (dataStream v s.level s.mode s.payload)
  rw [dataBytes, ← BitString.toBits_eq_flatMap_bytes hwf hlen, hbits]

/-- A payload that fits fills the data codewords exactly. -/
theorem length_dataBytes (h : s.Fits v) : (s.dataBytes v).length = v.dataCodewords s.level := by
  have hbits := congrArg List.length (flatMap_dataBytes h)
  rw [length_flatMap_byteBits, length_dataStream h] at hbits
  omega

/-- **A version that is searched for fits.** -/
theorem fits_of_chosen (hv : s.chosenVersion = .ok v) (hauto : s.version = none) : s.Fits v := by
  unfold chosenVersion at hv
  rw [hauto] at hv
  exact Sizing.segmentBits_le_of_fits (Sizing.smallestVersion_fits hv)

/-! ### The stages -/

/-- Encoding is a choice of a version, then encoding in it. -/
theorem encode_result (s : Settings) :
    s.encode.result = (do
      let v ← s.chosenVersion
      let codewords ← (encodeIn v s.level s.mode s.payload).result
      return ⟨v, s.mode, codewords⟩) := by
  unfold encode chosenVersion
  cases s.version with
  | some v => simp only [Traced.result_bind, Traced.result_pure]; rfl
  | none =>
    unfold encodeFitting
    simp only [Traced.result_bind, Traced.result_pure]
    show (Traced.ofExcept (s.sizing.smallestVersion s.level s.mode s.payload.length)).result >>= _ = _
    unfold Traced.ofExcept Traced.emit
    cases s.sizing.smallestVersion s.level s.mode s.payload.length <;> rfl

/-- **The stages of a build**, without what they tell. -/
theorem build_eq (s : Settings) :
    s.build = (do
      let v ← s.chosenVersion
      let codewords ← (encodeIn v s.level s.mode s.payload).result
      let bits ← (protect v s.level codewords.bytes.toList).result
      let draft ← (draw v s.level bits).result
      (s.finish draft).result) := by
  unfold build trace
  simp only [Traced.result_bind, Traced.emit, Traced.result_pure, encode_result]
  simp only [bind, Except.bind]
  cases s.chosenVersion with
  | error e => rfl
  | ok v =>
    dsimp only
    cases (encodeIn v s.level s.mode s.payload).result with
    | error e => rfl
    | ok codewords =>
      dsimp only [pure, Except.pure]
      cases (protect v s.level codewords.bytes.toList).result with
      | error e => rfl
      | ok bits =>
        dsimp only
        cases (draw v s.level bits).result with
        | error e => rfl
        | ok draft =>
          dsimp only
          cases (s.finish draft).result <;> rfl

/-- The stages after the choice of a version. -/
theorem build_of_chosen (hv : s.chosenVersion = .ok v) :
    s.build = (do
      let codewords ← (encodeIn v s.level s.mode s.payload).result
      let bits ← (protect v s.level codewords.bytes.toList).result
      let draft ← (draw v s.level bits).result
      (s.finish draft).result) := by
  rw [build_eq, hv]
  rfl

/-- Data that fills its codewords is protected without an error. -/
theorem protect_result {plan : BlockPlan} (hplan : BlockPlan.ofVersion v s.level = .ok plan)
    (h : s.Fits v) :
    ∃ bits, (protect v s.level (s.dataBytes v)).result = .ok bits ∧ bits.toBits = s.symbolBits v plan := by
  refine ⟨_, congrArg Traced.result (protect_eq hplan (length_dataBytes h)), ?_⟩
  rw [BitString.toBits_appendBytes BitString.wellFormed_empty, BitString.toBits_empty, List.nil_append]
  rfl

/-- The arranged blocks take all codewords of the version. -/
theorem length_symbolBits {plan : BlockPlan} (hplan : BlockPlan.ofVersion v s.level = .ok plan)
    (h : s.Fits v) : (s.symbolBits v plan).length = 8 * v.totalCodewords := by
  rw [symbolBits, length_flatMap_byteBits,
    (BlockPlan.divide_eq_ok hplan).length_arrange (length_dataBytes h)]

/-- Bits for which there is room are drawn without an error. -/
theorem draw_result {bits : BitString} (h : bits.toBits.length ≤ (dataPlaces v).length) :
    (draw v s.level bits).result = .ok (.drawn v s.level bits.toBits) := by
  unfold draw
  have hplace := Draft.placePayload_eq v s.level bits.toBits
  rw [if_pos h] at hplace
  simp only [Traced.ofProgram_of_ok hplace]
  rfl

/-- **A drawn draft is finished**, with the mask of the settings or the best of all. -/
theorem finish_drawn (s : Settings) (v : Version) (bits : List Bool) :
    ∃ m, (s.finish (.drawn v s.level bits)).result = .ok (drawnSymbol v s.level bits m) ∧
      (∀ forced, s.mask = some forced → m = forced) ∧
      (s.mask = none →
        Mask.FirstBest (fun m => penalty (drawnSymbol v s.level bits m).grid) Mask.all m) := by
  unfold finish
  cases hm : s.mask with
  | some m =>
    refine ⟨m, ?_, fun forced hforced => Option.some.inj hforced, nofun⟩
    dsimp only
    rw [Traced.emit_bind, Draft.toSymbol_masked]
    rfl
  | none =>
    obtain ⟨m, hselect, hbest⟩ := Draft.selectMask_drawn v s.level bits
    exact ⟨m, hselect, nofun, fun _ => hbest⟩

/-! ### The outcome -/

/-- What is known of a build that succeeds. -/
structure Built (s : Settings) (v : Version) (plan : BlockPlan) (m : Mask) : Prop where
  version : s.chosenVersion = .ok v
  fits : s.Fits v
  best : s.mask = none → Mask.FirstBest (fun m => penalty (s.symbol v plan m).grid) Mask.all m
  plan : BlockPlan.ofVersion v s.level = .ok plan
  mask : ∀ forced, s.mask = some forced → m = forced

/-- **A payload that fits is built.** -/
theorem build_of_fits (hv : s.chosenVersion = .ok v) (hfit : s.Fits v) :
    ∃ plan m, s.build = .ok (s.symbol v plan m) ∧ s.Built v plan m := by
  obtain ⟨plan, hplan, -⟩ := BlockPlan.exists_plan v s.level
  obtain ⟨bits, hprotect, hbits⟩ := protect_result hplan hfit
  obtain ⟨m, hfinish, hmask, hbest⟩ := finish_drawn s v (s.symbolBits v plan)
  refine ⟨plan, m, ?_, hv, hfit, hbest, hplan, hmask⟩
  have hencode : (encodeIn v s.level s.mode s.payload).result =
      .ok (.ofBits (dataStream v s.level s.mode s.payload)) := by
    have hle : Sizing.segmentBits s.mode v s.payload.length ≤ v.dataBits s.level := hfit
    rw [encodeIn_eq s.contains_mode, if_pos hle]
  have hroom : bits.toBits.length ≤ (dataPlaces v).length := by
    rw [hbits, length_symbolBits hplan hfit]
    exact codewords_le_dataPlaces v
  have hdraw := draw_result (s := s) hroom
  rw [hbits] at hdraw
  rw [build_of_chosen hv, hencode]
  show (do
    let bits ← (protect v s.level (s.dataBytes v)).result
    let draft ← (draw v s.level bits).result
    (s.finish draft).result) = _
  rw [hprotect]
  show (do
    let draft ← (draw v s.level bits).result
    (s.finish draft).result) = _
  rw [hdraw]
  exact hfinish

/-- **A payload that does not fit is refused**, for its count or for its length. -/
theorem build_of_not_fits (hv : s.chosenVersion = .ok v) (hfit : ¬s.Fits v) :
    s.build = .error (if 2 ^ s.mode.countBits v ≤ s.payload.length then
      .countOverflow s.payload.length (s.mode.countBits v) else .capacityExceeded) := by
  have hlt : ¬Sizing.segmentBits s.mode v s.payload.length ≤ v.dataBits s.level := hfit
  rw [build_of_chosen hv, encodeIn_eq s.contains_mode, if_neg hlt]
  by_cases hcount : 2 ^ s.mode.countBits v ≤ s.payload.length
  · rw [if_pos hcount, if_pos hcount]
    rfl
  · rw [if_neg hcount, if_neg hcount]
    rfl

/-- Without a version there is nothing to build. -/
theorem build_of_no_version {e : Error} (hv : s.chosenVersion = .error e) : s.build = .error e := by
  rw [build_eq, hv]
  rfl

/-- **Every symbol that a build returns** is drawn from its payload. -/
theorem exists_built (h : s.build = .ok q) : ∃ v plan m, s.Built v plan m ∧ q = s.symbol v plan m := by
  cases hv : s.chosenVersion with
  | error e => rw [build_of_no_version hv] at h; cases h
  | ok v =>
    by_cases hfit : s.Fits v
    · obtain ⟨plan, m, hbuild, hbuilt⟩ := build_of_fits hv hfit
      exact ⟨v, plan, m, hbuilt, Except.ok.inj (h.symm.trans hbuild)⟩
    · rw [build_of_not_fits hv hfit] at h
      cases h

end Settings
end QRCode
