import Lookahead.Buffer.Compaction
import Lookahead.Buffer.Consume
import Lookahead.Escape.Decoder
import Lookahead.Transaction

/-!
# Scanning

Recognisers over a buffer. A recogniser answers `none` where it does not match, which leaves the
choice to its caller, and fails only where the whole scan has to end.
-/

namespace Lookahead

/-- Why a scan ended early. -/
inductive Fault where
  | buffer (error : BufferError)
  | misuse (misuse : Misuse)
  | escape (error : Escape.Error)
  /-- No rule matches at this position. -/
  | noRule (position : Position)
deriving DecidableEq, Repr

def Fault.message? : Fault → Option String
  | .buffer error => some error.message
  | .misuse broken => broken.message?
  | .escape error => some error.message
  | .noRule position => some ("syntax error at " ++ position.render)

/-- A computation over a buffer. The buffer it leaves behind is kept when it fails, too. -/
abbrev Scan (σ : Type) := EStateM Fault (Buffer σ)

namespace Scan

variable {σ : Type} {α : Type}

/-! ## Recognisers -/

/-- Runs a buffer operation, any failure of which ends the scan. -/
def ask (operation : EStateM BufferError (Buffer σ) α) : Scan σ α :=
  operation.adaptExcept .buffer

def byteIf [ByteSource σ] (accepts : UInt8 → Bool) : Scan σ (Option UInt8) := do
  ask (Buffer.ensure 1)
  match (← get).peek 0 with
  | none => return none
  | some byte =>
      if accepts byte then
        EStateM.adaptExcept .misuse (Buffer.consumeInLine 1)
        return some byte
      else return none

/-- Runs a recogniser under a guard: what it consumed is kept only if it matches. A failure closes
the guard as well. -/
def attempt (body : Scan σ (Option α)) : Scan σ (Option α) := fun b =>
  let (guard, opened) := Guard.begin .active b
  match body opened with
  | .ok (some a) b' => .ok (some a) (guard.commit b')
  | .ok none b' =>
      match guard.rollBack b' with
      | .ok () b'' => .ok none b''
      | .error misuse b'' => .error (.misuse misuse) b''
  | .error fault b' =>
      match guard.rollBack b' with
      | .ok () b'' => .error fault b''
      | .error misuse b'' => .error (.misuse misuse) b''

def since (start : Place) : Scan σ Span := fun b =>
  match b.span start with
  | .ok span => .ok span b
  | .error error => .error (.buffer error) b

def capture (body : Scan σ Unit) : Scan σ Span := do
  let start := (← get).place
  body
  since start

/-- What the bytes consumed since a place stand for. -/
def decodeSince (start : Place) (decoder : Escape.Decoder) : Scan σ (List UInt8) := do
  let span ← since start
  match decoder.apply span [] with
  | .ok () bytes => return bytes
  | .error error _ => throw (.escape error)

end Scan

end Lookahead
