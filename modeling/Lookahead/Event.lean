/-!
# Events

What a buffer does on its own account while it answers its caller: pulling, refusing a request, and
moving its bytes or putting that off. Failed pulls leave no event.
-/

namespace Lookahead

inductive Event.Level where
  | trace
  | debug
deriving DecidableEq, Repr

def Event.Level.name : Event.Level → String
  | .trace => "TRACE"
  | .debug => "DEBUG"

inductive Event where
  /-- A pull was answered with `received` bytes; the retained bytes now number `windowEnd`. -/
  | pulled (requested received windowEnd : Nat)
  /-- A request does not fit behind the cursor, which is `offset` bytes into the buffer. -/
  | overflow (requested capacity offset : Nat)
  /-- Compaction was due at `offset` but the bytes from `pinnedAt` on are pinned. -/
  | deferred (pinnedAt offset : Nat)
  /-- The first `shift` bytes were dropped and `retained` are left. -/
  | compacted (shift retained : Nat)
deriving DecidableEq, Repr

namespace Event

/-- Pulls are routine; the rest is worth a look. -/
def level : Event → Level
  | .pulled .. => .trace
  | _ => .debug

def message : Event → String
  | .pulled .. => "pulled from byte source"
  | .overflow .. => "lookahead request overflows buffer"
  | .deferred .. => "compaction deferred by live rewind guard"
  | .compacted .. => "compacted buffer"

def fields : Event → List (String × Nat)
  | .pulled requested received windowEnd =>
      [("requested", requested), ("received", received), ("window_end", windowEnd)]
  | .overflow requested capacity offset =>
      [("requested", requested), ("capacity", capacity), ("offset", offset)]
  | .deferred pinnedAt offset => [("pinned_at", pinnedAt), ("offset", offset)]
  | .compacted shift retained => [("shift", shift), ("retained", retained)]

end Event

end Lookahead
