import Lookahead.Buffer.Arena
import Lookahead.Event
import Lookahead.Failure
import Lookahead.LineEnding
import Lookahead.Place
import Lookahead.Text.Spelling

/-!
# The sliding buffer

A buffer retains a stretch of a stream that is being pulled from a source, and a cursor within it.
The stretch stands at the front of an arena of fixed size, with free space behind it:

```text
 arena:    0      consumed      cursor.offset     window     filled     free     capacity
 stream:   base                 cursor.byte               base + filled
```

Bytes before the cursor stay until compaction drops them, so that a caller can go back. The bounds
that tie the cursor to the retained bytes, and those to the arena, are part of the type.
-/

namespace Lookahead

/-- A bounded window over a stream, and the source it is pulled from. -/
structure Buffer (σ : Type) where
  limits : Limits
  lineEnding : LineEnding
  label : String
  source : σ
  /-- The bytes of the buffer, those of the free space included. -/
  arena : Array UInt8
  /-- How many bytes at the front of the arena are retained: those consumed since `base`, then the
  window. -/
  filled : Nat
  /-- The stream index of the first byte of the arena. -/
  base : Nat
  cursor : Mark
  /-- The stream index that compaction may not pass: the earliest snapshot of a live guard. -/
  pin : Option Nat
  log : Array Event
  arena_size : arena.size = limits.capacity
  cursor_le : cursor.offset ≤ filled
  filled_le : filled ≤ limits.capacity
  cursor_byte : cursor.byte = base + cursor.offset

namespace Buffer

variable {σ : Type}

/-- A buffer at the start of a stream, holding nothing yet. -/
def ofLimits (limits : Limits) (lineEnding : LineEnding) (label : String) (source : σ) :
    Buffer σ where
  limits := limits
  lineEnding := lineEnding
  label := label
  source := source
  arena := Array.replicate limits.capacity 0
  filled := 0
  base := 0
  cursor := {}
  pin := none
  log := #[]
  arena_size := Array.size_replicate
  cursor_le := Nat.le_refl _
  filled_le := Nat.zero_le _
  cursor_byte := rfl

/-- Makes a buffer, unless its limits are at fault. -/
def start (limits : Limits) (lineEnding : LineEnding) (label : String) (source : σ) :
    Except BufferError (Buffer σ) :=
  match limits.fault? with
  | some fault => .error (.invalidLimits fault)
  | none => .ok (ofLimits limits lineEnding label source)

theorem start_of_valid {limits : Limits} (valid : limits.Valid) (lineEnding : LineEnding)
    (label : String) (source : σ) :
    start limits lineEnding label source = .ok (ofLimits limits lineEnding label source) := by
  unfold start
  rw [Limits.fault?_eq_none_iff.mpr valid]

/-! ## What a buffer shows -/

/-- How many bytes the buffer has room for in all. -/
def capacity (b : Buffer σ) : Nat :=
  b.arena.size

def place (b : Buffer σ) : Place :=
  b.cursor.toPlace

/-- How many consumed bytes are still retained in front of the cursor. -/
def offset (b : Buffer σ) : Nat :=
  b.cursor.offset

/-- The stream index behind the last retained byte. -/
def stop (b : Buffer σ) : Nat :=
  b.base + b.filled

def retained (b : Buffer σ) : List UInt8 :=
  b.arena.toList.take b.filled

/-- The retained bytes that are not consumed yet. -/
def window (b : Buffer σ) : List UInt8 :=
  Arena.slice b.arena b.offset b.filled

def occupied (b : Buffer σ) : Nat :=
  b.filled - b.offset

def front (b : Buffer σ) (count : Nat) : List UInt8 :=
  Arena.slice b.arena b.offset (min (b.offset + count) b.filled)

/-- The byte `index` places behind the cursor, if it was pulled already. -/
def peek (b : Buffer σ) (index : Nat) : Option UInt8 :=
  if b.offset + index < b.filled then b.arena[b.offset + index]? else none

def free (b : Buffer σ) : Nat :=
  b.capacity - b.filled

/-- How far the cursor can go before it reaches the end of the buffer. -/
def reach (b : Buffer σ) : Nat :=
  b.capacity - b.offset

def mark (b : Buffer σ) : Mark :=
  b.cursor

def position (b : Buffer σ) : Position :=
  .ofPlace b.place b.label

theorem capacity_eq (b : Buffer σ) : b.capacity = b.limits.capacity :=
  b.arena_size

theorem base_add_offset (b : Buffer σ) : b.base + b.offset = b.place.byte :=
  b.cursor_byte.symm

theorem base_le_byte (b : Buffer σ) : b.base ≤ b.place.byte := by
  rw [← b.base_add_offset]
  exact Nat.le_add_right _ _

theorem byte_le_stop (b : Buffer σ) : b.place.byte ≤ b.stop := by
  rw [← b.base_add_offset]
  exact Nat.add_le_add_left b.cursor_le _

theorem offset_le_filled (b : Buffer σ) : b.offset ≤ b.filled :=
  b.cursor_le

theorem filled_le_capacity (b : Buffer σ) : b.filled ≤ b.capacity := by
  rw [b.capacity_eq]
  exact b.filled_le

theorem offset_le_capacity (b : Buffer σ) : b.offset ≤ b.capacity :=
  Nat.le_trans b.offset_le_filled b.filled_le_capacity

theorem offset_add_occupied (b : Buffer σ) : b.offset + b.occupied = b.filled := by
  have hle := b.offset_le_filled
  unfold occupied
  omega

theorem filled_add_free (b : Buffer σ) : b.filled + b.free = b.capacity := by
  have hle := b.filled_le_capacity
  unfold free
  omega

@[simp] theorem retained_length (b : Buffer σ) : b.retained.length = b.filled := by
  have hle := b.filled_le_capacity
  rw [retained, List.length_take, Array.length_toList]
  exact Nat.min_eq_left hle

theorem window_eq (b : Buffer σ) : b.window = b.retained.drop b.offset :=
  Arena.slice_eq _ _ _

@[simp] theorem window_length (b : Buffer σ) : b.window.length = b.occupied := by
  rw [window_eq, List.length_drop, retained_length]
  rfl

theorem front_eq (b : Buffer σ) (count : Nat) : b.front count = b.window.take count := by
  rw [front, Arena.slice_eq, window_eq, retained, ← List.take_take, List.drop_take,
    Nat.add_sub_cancel_left]

theorem peek_eq (b : Buffer σ) (index : Nat) : b.peek index = b.window[index]? := by
  rw [window_eq, List.getElem?_drop, retained, List.getElem?_take, peek, Array.getElem?_toList]

/-! ## The three changes every operation is made of -/

def note (b : Buffer σ) (event : Event) : Buffer σ :=
  { b with log := b.log.push event }

/-- Puts the cursor at a place whose byte lies within the retained bytes. -/
def moveTo (b : Buffer σ) (place : Place) (base_le : b.base ≤ place.byte)
    (le_stop : place.byte ≤ b.stop) : Buffer σ :=
  { b with
    cursor := ⟨place, place.byte - b.base⟩
    cursor_le := by
      unfold stop at le_stop
      simp only
      omega
    cursor_byte := by
      simp only
      omega }

/-- The second buffer is the first with its cursor elsewhere. Nothing else about them differs. -/
structure Moves (before after : Buffer σ) : Prop where
  limits_eq : after.limits = before.limits
  lineEnding_eq : after.lineEnding = before.lineEnding
  label_eq : after.label = before.label
  source_eq : after.source = before.source
  base_eq : after.base = before.base
  pin_eq : after.pin = before.pin
  log_eq : after.log = before.log
  retained_eq : after.retained = before.retained

theorem Moves.refl (b : Buffer σ) : Moves b b :=
  ⟨rfl, rfl, rfl, rfl, rfl, rfl, rfl, rfl⟩

theorem Moves.filled_eq {b c : Buffer σ} (h : Moves b c) : c.filled = b.filled := by
  rw [← c.retained_length, h.retained_eq, retained_length]

theorem Moves.stop_eq {b c : Buffer σ} (h : Moves b c) : c.stop = b.stop := by
  rw [stop, h.base_eq, h.filled_eq, ← stop]

/-- Takes a pull in: `written` is what the source wrote behind the retained bytes, the first `count`
of which join them, and `source` the state it then is in. -/
def absorb (b : Buffer σ) (source : σ) (written : List UInt8) (count : Nat)
    (fits : count ≤ b.free) : Buffer σ :=
  { b with
    source
    arena := Arena.write b.arena b.filled written
    filled := b.filled + count
    arena_size := by rw [Arena.write_size, b.arena_size]
    cursor_le := Nat.le_trans b.cursor_le (Nat.le_add_right _ _)
    filled_le := by
      have hfree := b.filled_add_free
      rw [b.capacity_eq] at hfree
      omega }

/-- Taking a pull in adds the bytes that count to those retained, and changes no other of them. -/
theorem retained_absorb (b : Buffer σ) (source : σ) {written : List UInt8} {count : Nat}
    (fits : count ≤ b.free) (hroom : written.length ≤ b.free) (hcount : count ≤ written.length) :
    (b.absorb source written count fits).retained = b.retained ++ written.take count := by
  have hsize : b.filled + written.length ≤ b.arena.size := by
    have hfree := b.filled_add_free
    unfold capacity at hfree
    omega
  calc (b.absorb source written count fits).retained
      = ((Arena.write b.arena b.filled written).toList.take (b.filled + written.length)).take
          (b.filled + count) := by
        rw [List.take_take, Nat.min_eq_left (Nat.add_le_add_left hcount _)]
        rfl
    _ = (b.retained ++ written).take (b.retained.length + count) := by
        rw [Arena.write_take_add hsize, retained_length]
        rfl
    _ = b.retained ++ written.take count := List.take_length_add_append _

end Buffer

/-! ## In one line of text -/

def Mark.describe (mark : Mark) : String :=
  "Marker \x7b offset: " ++ toString mark.offset ++ ", byte: " ++ toString mark.byte ++ ", line: "
    ++ toString mark.line ++ ", column: " ++ toString mark.column ++ " \x7d"

namespace Buffer

def describePin : Option Nat → String
  | none => "None"
  | some byte => "Some(" ++ toString byte ++ ")"

/-- What a buffer shows of itself for debugging: its label, its cursor, how many bytes it retains,
how many it has room for, and the pin. -/
def describe {σ : Type} (b : Buffer σ) : String :=
  "BufferInput \x7b source: " ++ Quoted.text b.label ++ ", current: " ++ b.mark.describe
    ++ ", end: " ++ toString b.filled ++ ", capacity: " ++ toString b.capacity
    ++ ", pinned: " ++ describePin b.pin ++ ", .. \x7d"

end Buffer

end Lookahead
