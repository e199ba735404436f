import Lookahead.Limits
import Lookahead.Source.Basic

/-!
# Failures of a buffer

Two kinds, kept apart. A `BufferError` is met by a caller that did nothing wrong: the request is too
long for the buffer, the source failed, or a mark lies outside the retained bytes. A `Misuse` is a
broken promise of the caller, such as consuming bytes that are not there. The end of the input is
neither: it shows as a window with no bytes.
-/

namespace Lookahead

inductive BufferError where
  /-- The request does not fit behind the cursor, however many bytes the source has. -/
  | overflow (requested capacity : Nat)
  | source (error : SourceError)
  | invalidLimits (fault : LimitsFault)
  /-- The bytes at a mark were compacted away or never pulled. -/
  | rewindPastWindow (byte retainedFrom : Nat)
  /-- A span was asked for from a mark beyond the cursor. -/
  | markAhead (byte current : Nat)
deriving DecidableEq, Repr

/-- The failure of a source that claims more bytes than it was given room for. -/
def SourceError.overReported : SourceError :=
  ⟨"byte source reported more bytes than requested"⟩

def BufferError.message : BufferError → String
  | .overflow requested capacity =>
      "overflow: " ++ toString requested ++ " bytes of lookahead exceed the buffer capacity of "
        ++ toString capacity
  | .source error => "byte source failed: " ++ error.message
  | .invalidLimits fault => "invalid buffer options: " ++ fault.message
  | .rewindPastWindow byte retainedFrom =>
      "cannot rewind to byte " ++ toString byte ++ ": the buffer only retains bytes from "
        ++ toString retainedFrom
  | .markAhead byte current =>
      "marker at byte " ++ toString byte ++ " is ahead of the current position "
        ++ toString current

/-- A promise that a caller broke. -/
inductive Misuse where
  /-- `consume` of more bytes than the window holds. -/
  | consumePastWindow
  /-- `consumeInLine` of more bytes than the window holds. -/
  | inLinePastWindow
  /-- `consumeInLine` over a byte that starts a line. -/
  | inLineOverLineByte
  /-- `consumeToNextLine` of more bytes than the window holds. -/
  | nextLinePastWindow
  /-- A table of escapes whose two columns differ in length. -/
  | unevenColumns
  /-- A guard whose snapshot is no longer retained. -/
  | snapshotLost
deriving DecidableEq, Repr

def Misuse.message? : Misuse → Option String
  | .consumePastWindow => none
  | .inLinePastWindow => some "consume_in_line past window end"
  | .inLineOverLineByte => some "consume_in_line over a line terminator"
  | .nextLinePastWindow => some "consume_to_next_line past window end"
  | .unevenColumns => some "size mismatch between escaped characters and their mappings"
  | .snapshotLost => none

end Lookahead
