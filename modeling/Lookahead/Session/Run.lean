import Lookahead.Buffer.Compaction
import Lookahead.Buffer.Consume
import Lookahead.Session.Op
import Lookahead.Source.Recorded

/-!
# Running a session

A session holds a buffer over a recorded source, the frames that are open, the marks saved by name
and the output of the decodings. An operation that fails leaves the session as the failing buffer
operation does and the next one follows. Frames still open at the end are let go, innermost first.
-/

namespace Lookahead

/-- A frame: a guard opened for its own sake, or the one of an attempt. -/
inductive Session.Frame where
  | guard (guard : Guard)
  | attempt (guard : Guard)
deriving DecidableEq, Repr

structure Session (σ : Type) where
  buffer : Buffer (Recorded σ)
  /-- The open frames, innermost first. -/
  frames : List Session.Frame := []
  /-- The saved marks, the latest first. -/
  slots : List (String × Mark) := []
  out : List UInt8 := []

namespace Session

variable {σ : Type}

def resolve (s : Session σ) : Target → Mark
  | .slot name => (s.slots.lookup name).getD {}
  | .mark mark => mark

/-- Runs a buffer operation and answers with its value or its failure. -/
def perform {ε α : Type} (operation : EStateM ε (Buffer (Recorded σ)) α) (onValue : α → Answer)
    (onFailure : ε → Answer) (s : Session σ) : Answer × Session σ :=
  match operation s.buffer with
  | .ok value buffer => (onValue value, { s with buffer })
  | .error failure buffer => (onFailure failure, { s with buffer })

/-- Opens a guard and keeps it as a frame. -/
def enter (mode : Guard.Mode) (frame : Guard → Frame) (answer : Guard → Answer) (s : Session σ) :
    Answer × Session σ :=
  let (guard, buffer) := Guard.begin mode s.buffer
  (answer guard, { s with buffer, frames := frame guard :: s.frames })

def keep (guard : Guard) (answer : Answer) (s : Session σ) : Answer × Session σ :=
  (answer, { s with buffer := guard.commit s.buffer })

def undo (guard : Guard) (answer : Answer) : Session σ → Answer × Session σ :=
  perform guard.rollBack (fun _ => answer) .misused

def leave (how : Close) (s : Session σ) : Answer × Session σ :=
  match s.frames with
  | [] => (.text "no frame", s)
  | .guard guard :: frames =>
      let s := { s with frames }
      match how with
      | .commit => keep guard (.text "commit") s
      | .finish true => keep guard (.flag true) s
      | .finish false => undo guard (.flag false) s
      | .unwind => undo guard (.text "panic") s
      | .error | .drop => undo guard (.text "drop") s
  | .attempt guard :: frames =>
      let s := { s with frames }
      match how with
      | .commit | .finish true => keep guard (.flag true) s
      | .error => undo guard (.text "error") s
      | .unwind => undo guard (.text "panic") s
      | .finish false | .drop => undo guard (.flag false) s

/-- Takes the span from a target to the cursor and hands it on. -/
def withSpan (target : Target) (next : Span → Answer × Session σ) (s : Session σ) :
    Answer × Session σ :=
  match s.buffer.span (s.resolve target).toPlace with
  | .ok span => next span
  | .error error => (.failed error, s)

def step [ByteSource σ] (op : Op) (s : Session σ) : Answer × Session σ :=
  match op with
  | .ensure amount => s.perform (Buffer.ensure amount) (fun _ => .done) .failed
  | .fill amount => s.perform (Buffer.fill amount) .count .failed
  | .countAhead amount => s.perform (Buffer.countAhead amount) .count .failed
  | .isAtEnd => s.perform Buffer.isAtEnd .flag .failed
  | .lookAhead amount => s.perform (Buffer.lookAhead amount) .bytes .failed
  | .window => (.bytes s.buffer.window, s)
  | .peek index => (.byte (s.buffer.peek index), s)
  | .consume count => s.perform (Buffer.consume count) (fun _ => .done) .misused
  | .consumeInLine count => s.perform (Buffer.consumeInLine count) (fun _ => .done) .misused
  | .consumeToNextLine count =>
      s.perform (Buffer.consumeToNextLine count) (fun _ => .done) .misused
  | .consumeLineEnding => s.perform Buffer.consumeLineEnding .flag .failed
  | .discard => (.done, { s with buffer := s.buffer.discard })
  | .save slot =>
      (.mark s.buffer.mark, { s with slots := (slot, s.buffer.mark) :: s.slots })
  | .restore target =>
      s.perform (Buffer.restore (s.resolve target).toPlace) (fun _ => .done) .failed
  | .position => (.position s.buffer.position, s)
  | .positionAt target =>
      (.position (.ofPlace (s.resolve target).toPlace s.buffer.label), s)
  | .label => (.text s.buffer.label, s)
  | .describe => (.text s.buffer.describe, s)
  | .span target => s.withSpan target (fun span => (.span span, s))
  | .decode target decoding =>
      s.withSpan target (fun span =>
        match decoding with
        | .error misuse => (.decoded span (.misuse misuse) s.out, s)
        | .ok decoding =>
            let (outcome, out) := decoding.run span s.out
            (.decoded span (.outcome outcome) out, { s with out }))
  | .openGuard mode => s.enter mode .guard .opened
  | .openAttempt => s.enter .active .attempt (fun _ => .text "attempt")
  | .close how => s.leave how

/-- What is shown after an operation: its answer, the buffer as it then is, and what happened on the
way. -/
structure Report where
  answer : Answer
  mark : Mark
  occupied : Nat
  free : Nat
  window : List UInt8
  /-- The room offered by each pull made on the way. -/
  pulls : List Nat
  events : List Event

/-- The report on a step from one state of a session to another. -/
def report (answer : Answer) (before after : Session σ) : Report where
  answer := answer
  mark := after.buffer.mark
  occupied := after.buffer.occupied
  free := after.buffer.free
  window := after.buffer.window
  pulls := (after.buffer.source.history.toList.drop before.buffer.source.history.size).map
    (fun pulled => pulled.room)
  events := after.buffer.log.toList.drop before.buffer.log.size

/-- Carries out operations in order and reports on each. -/
def play [ByteSource σ] : List Op → Session σ → List Report × Session σ
  | [], s => ([], s)
  | op :: ops, s =>
      let (answer, next) := s.step op
      let (reports, last) := play ops next
      (report answer s next :: reports, last)

def unwind [ByteSource σ] (s : Session σ) : List Report × Session σ :=
  play (List.replicate s.frames.length (.close .drop)) s

/-- Carries out operations and lets go of the frames they leave open. -/
def run [ByteSource σ] (ops : List Op) (s : Session σ) : List Report :=
  let (reports, last) := s.play ops
  reports ++ last.unwind.1

def start (limits : Limits) (lineEnding : LineEnding) (label : String) (source : σ) :
    Except BufferError (Session σ) := do
  return { buffer := ← Buffer.start limits lineEnding label ⟨source, #[]⟩ }

end Session

end Lookahead
