/-
# The trace of a build

What `QRBuilder::build` and the functions that it calls log.

A build tells what it does.  Each `Event` has a severity and a text, and carries
the numbers that the text reports, so that a statement about a trace is a statement
about numbers and not about strings.

A `Traced` computation has a result, which may be an error, and the events up to
there: what follows an error is not told (`Traced.bind`).
-/

import QRCode.Description
import QRCode.Mode
import QRCode.Sizing

namespace QRCode

/-- How much an event matters. -/
inductive Severity where
  | debug
  | info
  deriving DecidableEq

/-- The name of a severity. -/
def Severity.name : Severity → String
  | debug => "DEBUG"
  | info => "INFO"

/-- What a build tells. -/
inductive Event where
  /-- A build starts with these settings. -/
  | started (settings : Description)
  /-- A version was found for so many characters. -/
  | selectedVersion (version : Version) (count : Nat) (level : Level) (sizing : Sizing)
  /-- A payload was packed. -/
  | packed (count : Nat) (mode : Mode) (bits : Nat)
  /-- The bit string was filled up with pad codewords. -/
  | terminated (pads : Nat)
  /-- Blocks are about to be encoded. -/
  | protecting
  /-- Blocks were interleaved. -/
  | interleaved (blocks eccPerBlock total : Nat)
  /-- The draft is about to be drawn. -/
  | drawing
  /-- The payload was placed, and light modules after it. -/
  | placed (bits remainder : Nat)
  /-- The mask of the settings is about to be applied. -/
  | applyingMask (mask : Mask)
  /-- All masks are about to be tried. -/
  | searchingMask
  /-- A mask was tried. -/
  | scored (mask : Mask) (penalty : Nat)
  /-- A symbol is finished. -/
  | finished (symbol : Description)
  /-- What the symbol can hold, and what it holds. -/
  | capacity (dataCodewords correctable : Nat) (mode : Mode) (size : Nat)
  /-- How many modules are dark, out of how many. -/
  | colours (dark total : Nat)
  deriving DecidableEq

namespace Event

/-- The last words on a finished symbol matter more than the steps on the way. -/
def severity : Event → Severity
  | finished _ | capacity .. | colours .. => .info
  | _ => .debug

/-- An event in words. -/
def text : Event → String
  | started settings => s!"Generating QR {settings.text}..."
  | selectedVersion version count level sizing =>
    s!"Selected version {version.number} for {count} chars at {level.letter} ({sizing.name})"
  | packed count mode bits => s!"Packed {count} chars in {mode.name} mode into {bits} bits"
  | terminated pads => s!"Terminated stream with {pads} pad codewords"
  | protecting => "Constructing payload with ecc & interleaving..."
  | interleaved blocks ecc total =>
    s!"Interleaved {blocks} blocks of {ecc} EC codewords into {total} codewords"
  | drawing => "Drawing functional patterns & encoding region..."
  | placed bits remainder => s!"Placed {bits} payload bits and {remainder} remainder bits"
  | applyingMask mask => s!"Applying mask {mask.index.val}..."
  | searchingMask => "Finding & applying best mask..."
  | scored mask penalty => s!"Mask {mask.index.val} scored penalty {penalty}"
  | finished symbol => s!"Generated QR {symbol.text}"
  | capacity dataCodewords correctable mode size =>
    s!"Data capacity: {dataCodewords}, Error capacity: {correctable}, Mode: {mode.name}, Data size: {size}"
  | colours dark total =>
    s!"Dark cells: {dark}, Light cells: {total - dark}, Balance: {dark * 100 / total}%"

end Event

/-- A result together with the events on the way to it. -/
structure Traced (α : Type) where
  result : Except Error α
  events : List Event

namespace Traced

variable {α β : Type}

/-- A result without events. -/
def ofExcept (r : Except Error α) : Traced α := ⟨r, []⟩

/-- One event. -/
def emit (e : Event) : Traced Unit := ⟨.ok (), [e]⟩

/-- One computation after another; the second one does not take place after an error. -/
def bind (x : Traced α) (f : α → Traced β) : Traced β :=
  match x.result with
  | .ok a => let y := f a; ⟨y.result, x.events ++ y.events⟩
  | .error e => ⟨.error e, x.events⟩

instance : Monad Traced where
  pure a := ofExcept (.ok a)
  bind := bind

instance : MonadLift (Except Error) Traced := ⟨ofExcept⟩

/-- The value of a program with state, run from a given state. -/
def ofProgram {σ : Type} (program : EStateM Error σ α) (s : σ) : Traced (α × σ) :=
  match program.run s with
  | .ok a s => ⟨.ok (a, s), []⟩
  | .error e _ => ⟨.error e, []⟩

@[simp] theorem result_pure (a : α) : (pure a : Traced α).result = .ok a := rfl

@[simp] theorem events_pure (a : α) : (pure a : Traced α).events = [] := rfl

/-- The result of one computation after another does not depend on events. -/
theorem result_bind (x : Traced α) (f : α → Traced β) :
    (x >>= f).result = x.result >>= fun a => (f a).result := by
  show (bind x f).result = _
  unfold bind
  cases x.result <;> rfl

end Traced
end QRCode
