import Lookahead.Escape.Decoder
import Lookahead.Transaction

/-!
# Operations and their answers

Everything that can be asked of a buffer, as data: a session is driven by a list of operations and
answers each of them. Frames are opened and closed by operations of their own, so that every list of
operations is well nested, whatever it holds.
-/

namespace Lookahead.Session

/-- Where to go back to or to take a span from. -/
inductive Target where
  /-- The mark saved under a name; a name that was never saved under means the start. -/
  | slot (name : String)
  /-- A mark made up by the caller. -/
  | mark (mark : Mark)
deriving DecidableEq, Repr

inductive Close where
  | commit
  /-- Keep what was consumed if `success`. -/
  | finish (success : Bool)
  /-- The body of the frame ended with an error. -/
  | error
  /-- The body of the frame was abandoned. -/
  | unwind
  | drop
deriving DecidableEq, Repr

inductive Op where
  | ensure (amount : Nat)
  | fill (amount : Nat)
  | countAhead (amount : Nat)
  | isAtEnd
  | lookAhead (amount : Nat)
  | window
  | peek (index : Nat)
  | consume (count : Nat)
  | consumeInLine (count : Nat)
  | consumeToNextLine (count : Nat)
  | consumeLineEnding
  | discard
  | save (slot : String)
  | restore (target : Target)
  | position
  | positionAt (target : Target)
  | label
  | describe
  | span (target : Target)
  /-- A span and its decoding, which may be one that could not be made. -/
  | decode (target : Target) (decoding : Except Misuse Escape.Decoding)
  | openGuard (mode : Guard.Mode)
  | openAttempt
  | close (how : Close)

inductive Decoded where
  | outcome (outcome : Escape.Outcome)
  | misuse (misuse : Misuse)
deriving DecidableEq, Repr

inductive Answer where
  | done
  | count (n : Nat)
  | flag (value : Bool)
  | bytes (bytes : List UInt8)
  | byte (byte : Option UInt8)
  | mark (mark : Mark)
  | position (position : Position)
  | text (text : String)
  | span (span : Span)
  | decoded (span : Span) (how : Decoded) (out : List UInt8)
  | opened (guard : Guard)
  | failed (error : BufferError)
  | misused (misuse : Misuse)
deriving DecidableEq, Repr

end Lookahead.Session
