/-
# What a build tells

The log of `QRBuilder::build`, in order and for every outcome.

The trace of a build follows from its settings and its result (`Settings.Told`):

| a build ends with | what it tells |
| --- | --- |
| a symbol | how it began, the stages with their numbers, the masks, the last words |
| `capacityExceeded`, in a forced version | how it began, and how long the packed payload is |
| any other error | how it began |

The last words are told of every symbol and of nothing else, and they alone are more than
details on the way.  All numbers are those of the symbol and its settings
(`Settings.Built.trace_eq`); a score that is told is the penalty of the symbol that a build
with this mask forced makes.
-/

import QRCode.Proofs.Choices
import Mathlib.Data.Finset.Prod

namespace QRCode

/-! ### Numbers of modules -/

/-- The number of light modules. -/
def Symbol.lightCount (q : Symbol) : Nat := q.grid.toList.countP fun k => !k.isDark

/-- Every module is dark or light. -/
theorem Symbol.darkCount_add_lightCount (q : Symbol) :
    q.darkCount + q.lightCount = q.width * q.width := by
  have hlength : q.grid.toList.length = q.width * q.width := q.grid.length_toList
  have hsplit := List.length_eq_countP_add_countP Colour.isDark (l := q.grid.toList)
  rw [darkCount, lightCount, ← hlength, hsplit]
  congr 1
  exact List.countP_congr fun k _ => by simp

/-- **The light modules that are told are those that the symbol has.** -/
theorem Symbol.text_colours (q : Symbol) :
    (Event.colours q.darkCount (q.width * q.width)).text =
      s!"Dark cells: {q.darkCount}, Light cells: {q.lightCount}, Balance: {q.darkCount * 100 / (q.width * q.width)}%" := by
  have hlight : q.lightCount = q.width * q.width - q.darkCount := by
    rw [← q.darkCount_add_lightCount, Nat.add_sub_cancel_left]
  rw [hlight]
  rfl

/-- The number of modules that belong neither to a function pattern nor to the format or
version information. -/
def Version.dataModules (v : Version) : Nat :=
  ((Finset.range v.width ×ˢ Finset.range v.width).filter fun p => isReserved v p = false).card

/-- The data region has a place for each of them. -/
theorem Version.length_dataPlaces (v : Version) : (dataPlaces v).length = v.dataModules := by
  have hset : (dataPlaces v).toFinset =
      (Finset.range v.width ×ˢ Finset.range v.width).filter fun p => isReserved v p = false := by
    ext p
    rw [List.mem_toFinset, mem_dataPlaces_iff, Finset.mem_filter, Finset.mem_product, Finset.mem_range,
      Finset.mem_range, and_assoc]
  rw [dataModules, ← hset, List.toFinset_card_of_nodup (nodup_dataPlaces v)]

/-- The data modules of a version hold its codewords. -/
theorem Version.codewords_le_dataModules (v : Version) : 8 * v.totalCodewords ≤ v.dataModules := by
  rw [← v.length_dataPlaces]
  exact codewords_le_dataPlaces v

/-- A computation that ends with a change of its result tells the same. -/
theorem Traced.bind_pure {α β : Type} (x : Traced α) (f : α → β) :
    (x >>= fun a => pure (f a)) = ⟨x.result.map f, x.events⟩ := by
  obtain ⟨result, events⟩ := x
  cases result with
  | error e => rfl
  | ok a =>
    rw [Traced.ok_bind, Traced.result_pure, Traced.events_pure, List.append_nil]
    rfl

namespace Settings

variable {s : Settings} {v : Version} {plan : BlockPlan} {m : Mask} {q : Symbol} {e : Error}

/-! ### What is told -/

/-- The packed bits: the indicator of the mode, the count field, and the characters. -/
def packedBits (s : Settings) (v : Version) : Nat :=
  4 + s.mode.countBits v + s.mode.packedLength s.payload.length

/-- What is told of the packed payload. -/
def packing (s : Settings) (v : Version) : Event := .packed s.payload.length s.mode (s.packedBits v)

/-- The pad codewords: what the packed bits, the terminator and the padding bits leave of the
data codewords. -/
def padCount (s : Settings) (v : Version) : Nat :=
  v.dataCodewords s.level - (min (s.packedBits v + 4) (8 * v.dataCodewords s.level) + 7) / 8

/-- What is told of the choice of a version; a forced one is not chosen. -/
def selection (s : Settings) (v : Version) : List Event :=
  match s.version with
  | some _ => []
  | none => [.selectedVersion v s.payload.length s.level s.sizing]

/-- The stages from the choice of a version to the unmasked draft. -/
def stages (s : Settings) (v : Version) (remainder : Nat) : List Event :=
  s.selection v ++
    [s.packing v, .terminated (s.padCount v), .protecting,
      .interleaved (v.blockCount s.level) (v.eccPerBlock s.level) v.totalCodewords, .drawing,
      .placed (8 * v.totalCodewords) remainder]

/-- A forced mask, or all masks with their scores. -/
def masking (s : Settings) (score : Mask → Nat) : List Event :=
  match s.mask with
  | some m => [.applyingMask m]
  | none => .searchingMask :: Mask.all.map fun m => .scored m (score m)

/-- The last words on a symbol. -/
def lastWords (s : Settings) (q : Symbol) : List Event :=
  [.finished q.description,
    .capacity (q.version.dataCodewords s.level) (q.version.correctable s.level) s.mode s.payload.length,
    .colours q.darkCount (q.width * q.width)]

/-- What is told of a failure after the beginning: only a forced version can turn out too small
for a payload that was packed. -/
def failing (s : Settings) (e : Error) : List Event :=
  match s.version, e with
  | some v, .capacityExceeded => [s.packing v]
  | _, _ => []

/-- What a build tells. -/
structure Told (s : Settings) : Prop where
  /-- Exactly a build that makes a symbol ends with three events that are more than details,
  after details only. -/
  built_iff : (∃ q, s.build = .ok q) ↔ ∃ steps last, s.trace.events = steps ++ last ∧ last.length = 3 ∧
    (∀ event ∈ last, event.severity = .info) ∧ ∀ event ∈ steps, event.severity = .debug
  /-- A failure has only details. -/
  details : ∀ e, s.build = .error e → ∀ event ∈ s.trace.events, event.severity = .debug
  /-- Of a symbol, the stages and the masks are told, and last words.  The bits and the light
  modules that were placed fill the data region.  The scores are the penalties of the symbols
  with forced masks, and the mask of the symbol is the first with the lowest of them. -/
  symbol : ∀ q, s.build = .ok q → ∃ remainder, ∃ forced : Mask → Symbol,
    8 * q.version.totalCodewords + remainder = q.version.dataModules ∧
    (∀ m, { s with mask := some m }.build = .ok (forced m)) ∧
    s.trace.events = .started s.description :: (s.stages q.version remainder ++
      (s.masking (fun m => penalty (forced m).grid) ++ s.lastWords q)) ∧
    (s.mask = none → Mask.FirstBest (fun m => penalty (forced m).grid) Mask.all q.mask)
  /-- The colours that are told are those of all modules. -/
  colours : ∀ q, s.build = .ok q → q.darkCount + q.lightCount = q.width * q.width ∧
    (Event.colours q.darkCount (q.width * q.width)).text =
      s!"Dark cells: {q.darkCount}, Light cells: {q.lightCount}, Balance: {q.darkCount * 100 / (q.width * q.width)}%"
  /-- Of a failure, the beginning is told, and the packed payload when it is too long for a
  forced version. -/
  failure : ∀ e, s.build = .error e → s.trace.events = .started s.description :: s.failing e

/-! ### Encoding -/

/-- Encoding tells how the version was chosen, then what encoding in it tells. -/
theorem encode_of_chosen (hv : s.chosenVersion = .ok v) :
    s.encode = ⟨(encodeIn v s.level s.mode s.payload).result.map fun codewords => ⟨v, s.mode, codewords⟩,
      s.selection v ++ (encodeIn v s.level s.mode s.payload).events⟩ := by
  unfold encode selection
  cases hversion : s.version with
  | some w =>
    rw [chosenVersion_forced hversion] at hv
    obtain rfl := Except.ok.inj hv
    exact Traced.bind_pure _ _
  | none =>
    rw [chosenVersion_automatic hversion] at hv
    show (Traced.ofExcept (s.sizing.smallestVersion s.level s.mode s.payload.length) >>= fun v =>
      Traced.emit (.selectedVersion v s.payload.length s.level s.sizing) >>= fun _ =>
        encodeIn v s.level s.mode s.payload >>= fun codewords =>
          pure (Encoded.mk v s.mode codewords)) = _
    rw [hv, Traced.ofExcept, Traced.ok_bind, Traced.emit_bind, Traced.bind_pure]
    rfl

/-- **What is told of a payload that fits**: how long it is, and what fills it up. -/
theorem encode_of_fits (hv : s.chosenVersion = .ok v) (hfit : s.Fits v) :
    s.encode = ⟨.ok ⟨v, s.mode, .ofBits (dataStream v s.level s.mode s.payload)⟩,
      s.selection v ++ [s.packing v, .terminated (s.padCount v)]⟩ := by
  have hle : Sizing.segmentBits s.mode v s.payload.length ≤ v.dataBits s.level := hfit
  rw [encode_of_chosen hv, encodeIn_eq s.contains_mode, if_pos hle]
  rfl

/-- **What is told of a payload that does not fit** in a forced version. -/
theorem encode_of_not_fits (hversion : s.version = some v) (hfit : ¬s.Fits v) :
    s.encode = if 2 ^ s.mode.countBits v ≤ s.payload.length then
        ⟨.error (.countOverflow s.payload.length (s.mode.countBits v)), []⟩
      else ⟨.error .capacityExceeded, [s.packing v]⟩ := by
  have hlt : ¬Sizing.segmentBits s.mode v s.payload.length ≤ v.dataBits s.level := hfit
  have hselection : s.selection v = [] := by rw [selection, hversion]
  rw [encode_of_chosen (chosenVersion_forced hversion), hselection, encodeIn_eq s.contains_mode, if_neg hlt]
  split <;> rfl

/-- Without a version, encoding tells nothing. -/
theorem encode_of_no_version (hv : s.chosenVersion = .error e) : s.encode = ⟨.error e, []⟩ := by
  cases hversion : s.version with
  | some w =>
    rw [chosenVersion_forced hversion] at hv
    cases hv
  | none =>
    rw [chosenVersion_automatic hversion] at hv
    unfold encode
    rw [hversion]
    show (Traced.ofExcept (s.sizing.smallestVersion s.level s.mode s.payload.length) >>= fun v => _) = _
    rw [hv]
    rfl

/-- What follows an error of the encoder is not told. -/
theorem trace_of_encode {events : List Event} (h : s.encode = ⟨.error e, events⟩) :
    s.trace = ⟨.error e, .started s.description :: events⟩ := by
  unfold trace
  rw [h]
  rfl

/-! ### Drawing and masking -/

/-- Drawing tells how many bits were placed, and how many modules were left. -/
theorem draw_eq (level : Level) {bits : BitString} (h : bits.toBits.length ≤ v.dataModules) :
    draw v level bits = ⟨.ok (.drawn v level bits.toBits),
      [.placed bits.toBits.length (v.dataModules - bits.toBits.length)]⟩ := by
  have hplace := Draft.placePayload_eq v level bits.toBits
  rw [v.length_dataPlaces, if_pos h] at hplace
  unfold draw
  simp only [Traced.ofProgram_of_ok hplace, BitString.length_toBits]
  rfl

/-- **Every trial is told**, with the score of the symbol that it made. -/
theorem events_finish (s : Settings) (v : Version) (bits : List Bool) :
    (s.finish (.drawn v s.level bits)).events =
      s.masking fun m => penalty (drawnSymbol v s.level bits m).grid := by
  unfold finish masking
  cases s.mask with
  | some m =>
    dsimp only
    rw [Traced.emit_bind, Draft.toSymbol_masked]
    rfl
  | none =>
    dsimp only
    rw [Traced.emit_bind, events_selectMask (Draft.run_drawn v s.level bits)]
    rfl

/-- Masking tells the mask, or all that were tried with their scores. -/
theorem Built.finish_eq (h : s.Built v plan m) :
    s.finish (.drawn v s.level (s.symbolBits v plan)) =
      ⟨.ok (s.symbol v plan m), s.masking fun m => penalty (s.symbol v plan m).grid⟩ := by
  obtain ⟨m', hresult, hmask, hbest⟩ := finish_drawn s v (s.symbolBits v plan)
  have hbuilt : s.Built v plan m' := ⟨h.version, h.fits, hbest, h.plan, hmask⟩
  rw [← h.mask_unique hbuilt] at hresult
  show Traced.mk (s.finish _).result (s.finish _).events = _
  rw [hresult, events_finish]
  rfl

/-! ### The whole trace -/

/-- **The trace of a build that makes a symbol.** -/
theorem Built.trace_eq (h : s.Built v plan m) :
    s.trace = ⟨.ok (s.symbol v plan m), .started s.description ::
      (s.stages v (v.dataModules - 8 * v.totalCodewords) ++
        (s.masking (fun m => penalty (s.symbol v plan m).grid) ++ s.lastWords (s.symbol v plan m)))⟩ := by
  have hprotect := protect_eq h.plan (length_dataBytes h.fits)
  have hbits : (BitString.empty.appendBytes (arrange (plan.blocks (s.dataBytes v)))).toBits =
      s.symbolBits v plan := by
    rw [BitString.toBits_appendBytes BitString.wellFormed_empty, BitString.toBits_empty, List.nil_append]
    rfl
  have hlen := length_symbolBits h.plan h.fits
  have hdraw := draw_eq s.level (v := v) (by rw [hbits, hlen]; exact v.codewords_le_dataModules)
  rw [hbits, hlen] at hdraw
  unfold trace
  rw [encode_of_fits h.version h.fits, Traced.emit_bind, Traced.ok_bind]
  dsimp only
  rw [← dataBytes]
  simp only [Traced.ok_bind, Traced.emit_bind, hprotect, hdraw, h.finish_eq]
  simp only [stages, List.append_assoc, List.cons_append, List.nil_append]
  rfl

/-- **The trace of a build that fails.** -/
theorem trace_of_error (h : s.build = .error e) :
    s.trace = ⟨.error e, .started s.description :: s.failing e⟩ := by
  cases hversion : s.version with
  | none =>
    unfold failing
    rw [hversion]
    cases hv : s.chosenVersion with
    | ok v =>
      obtain ⟨plan, m, hbuild, -⟩ := build_of_fits hv (fits_of_chosen hv hversion)
      rw [hbuild] at h
      cases h
    | error e' =>
      obtain rfl := Except.error.inj ((build_of_no_version hv).symm.trans h)
      exact trace_of_encode (encode_of_no_version hv)
  | some v =>
    have hv := chosenVersion_forced hversion
    by_cases hfit : s.Fits v
    · obtain ⟨plan, m, hbuild, -⟩ := build_of_fits hv hfit
      rw [hbuild] at h
      cases h
    · have herror := Except.error.inj ((build_of_not_fits hv hfit).symm.trans h)
      have hencode := encode_of_not_fits hversion hfit
      unfold failing
      rw [hversion]
      split at hencode
      · rename_i hcount
        rw [if_pos hcount] at herror
        subst herror
        exact trace_of_encode hencode
      · rename_i hcount
        rw [if_neg hcount] at herror
        subst herror
        exact trace_of_encode hencode

/-! ### Details and last words -/

/-- **The last words matter more** than what is told on the way. -/
theorem severity_lastWords (s : Settings) (q : Symbol) : ∀ event ∈ s.lastWords q, event.severity = .info := by
  simp [lastWords, Event.severity]

/-- The stages are details. -/
theorem severity_stages (s : Settings) (v : Version) (remainder : Nat) :
    ∀ event ∈ s.stages v remainder, event.severity = .debug := by
  unfold stages selection packing
  cases s.version <;> simp [Event.severity]

/-- So are the masks. -/
theorem severity_masking (s : Settings) (score : Mask → Nat) :
    ∀ event ∈ s.masking score, event.severity = .debug := by
  unfold masking
  cases s.mask <;> simp [Event.severity]

/-- A failing build tells nothing but details. -/
theorem severity_failing (s : Settings) (e : Error) : ∀ event ∈ s.failing e, event.severity = .debug := by
  unfold failing packing
  split <;> simp [Event.severity]

/-- **A failure has only details.** -/
theorem severity_of_error (h : s.build = .error e) : ∀ event ∈ s.trace.events, event.severity = .debug := by
  rw [trace_of_error h]
  exact List.forall_mem_cons.2 ⟨rfl, severity_failing s e⟩

/-- **Before the last words there are only details.** -/
theorem Built.events_eq (h : s.Built v plan m) :
    ∃ steps, s.trace.events = steps ++ s.lastWords (s.symbol v plan m) ∧
      ∀ event ∈ steps, event.severity = .debug := by
  refine ⟨.started s.description :: (s.stages v (v.dataModules - 8 * v.totalCodewords) ++
    s.masking fun m => penalty (s.symbol v plan m).grid), ?_, ?_⟩
  · rw [h.trace_eq, List.cons_append, List.append_assoc]
  · refine List.forall_mem_cons.2 ⟨rfl, fun event hevent => ?_⟩
    rcases List.mem_append.1 hevent with hevent | hevent
    · exact severity_stages _ _ _ event hevent
    · exact severity_masking _ _ event hevent

/-- **A build tells the truth**, for every payload and all settings. -/
theorem told (s : Settings) : s.Told where
  built_iff := by
    constructor
    · rintro ⟨q, hq⟩
      obtain ⟨v, plan, m, hbuilt, rfl⟩ := exists_built hq
      obtain ⟨steps, hevents, hsteps⟩ := hbuilt.events_eq
      exact ⟨steps, _, hevents, rfl, severity_lastWords s _, hsteps⟩
    · rintro ⟨steps, last, hevents, hlen, hlast, -⟩
      cases hbuild : s.build with
      | ok q => exact ⟨q, rfl⟩
      | error e =>
        -- the last of the three events would be a detail
        obtain ⟨event, hevent⟩ := List.exists_mem_of_length_pos (l := last) (by omega)
        have hdebug := severity_of_error hbuild event (by rw [hevents]; exact List.mem_append_right _ hevent)
        rw [hlast event hevent] at hdebug
        cases hdebug
  details e he := severity_of_error he
  symbol q hq := by
    obtain ⟨v, plan, m, hbuilt, rfl⟩ := exists_built hq
    refine ⟨v.dataModules - 8 * v.totalCodewords, s.symbol v plan,
      Nat.add_sub_of_le v.codewords_le_dataModules, fun m' => (hbuilt.forceMask m').build_eq, ?_, hbuilt.best⟩
    rw [hbuilt.trace_eq]
    rfl
  colours q _ := ⟨q.darkCount_add_lightCount, q.text_colours⟩
  failure e he := by rw [trace_of_error he]

end Settings
end QRCode
