/-
# Building a symbol

`QRBuilder`, from the settings to `QRBuilder::build`.

`Settings` say what to encode and how: the payload and the level, and optionally a
version, a mask and a sizing rule.  A build packs the payload, protects and
interleaves the codewords, draws a symbol and masks it; `Settings.trace` tells
every step, `Settings.build` only the result.

| setting | left out |
| --- | --- |
| version | the smallest that the sizing rule accepts |
| level | `M` |
| mask | the one with the lowest penalty |
| sizing | `conservative` |
-/

import QRCode.BestMask
import QRCode.Payload

namespace QRCode

/-- What to encode, and how. -/
structure Settings where
  payload : List UInt8
  version : Option Version := none
  level : Level := .medium
  mask : Option Mask := none
  sizing : Sizing := .conservative

namespace Settings

/-- What is said about a symbol before it is built. -/
def description (s : Settings) : Description := ⟨s.version, s.level, s.mask⟩

/-- The data codewords of the payload, in the version of the settings or the first
that fits. -/
def encode (s : Settings) : Traced Encoded :=
  match s.version with
  | some v => do
    let mode := Mode.select s.payload
    return ⟨v, mode, ← encodeIn v s.level mode s.payload⟩
  | none => encodeFitting s.sizing s.level s.payload

/-- A draft with the function patterns and given bits, not masked yet. -/
def draw (v : Version) (level : Level) (bits : BitString) : Traced Draft := do
  let draft := (Draft.blank v level).drawFunctionPatterns
  let (remainder, drawn) ← Traced.ofProgram (Draft.placePayload bits.toBits) draft
  Traced.emit (.placed bits.length remainder)
  return drawn

/-- A draft masked as the settings say. -/
def finish (s : Settings) (draft : Draft) : Traced Symbol :=
  match s.mask with
  | some m => do
    Traced.emit (.applyingMask m)
    (draft.applyMask m).toSymbol
  | none => do
    Traced.emit .searchingMask
    selectMask draft

/-- A build, step by step. -/
def trace (s : Settings) : Traced Symbol := do
  Traced.emit (.started s.description)
  let encoded ← s.encode
  Traced.emit .protecting
  let bits ← protect encoded.version s.level encoded.codewords.bytes.toList
  Traced.emit .drawing
  let draft ← draw encoded.version s.level bits
  let symbol ← s.finish draft
  Traced.emit (.finished symbol.description)
  Traced.emit (.capacity (encoded.version.dataCodewords s.level)
    (encoded.version.correctable s.level) encoded.mode s.payload.length)
  Traced.emit (.colours symbol.darkCount (symbol.width * symbol.width))
  return symbol

/-- The symbol that the settings describe (`QRBuilder::build`). -/
def build (s : Settings) : Except Error Symbol := s.trace.result

end Settings

/-- The symbol of a payload at a level, all else left open. -/
def encode (payload : List UInt8) (level : Level) : Except Error Symbol :=
  Settings.build { payload, level }

end QRCode
