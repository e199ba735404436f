import Lookahead.Buffer.Basic

/-!
# Asking for lookahead

A request names how many bytes the caller wants to see behind the cursor. One request makes at most
one pull, and none if the window already holds enough or the bytes could never fit. A short pull is
no error; `fill` asks again until it has enough or the input has ended.
-/

namespace Lookahead.Buffer

variable {σ : Type}

/-! ## One pull -/

/-- How many bytes to ask the source for: what is missing, but no less than a chunk, and no more
than there is room for. -/
def want (b : Buffer σ) (amount : Nat) : Nat :=
  min (max (amount - b.occupied) b.limits.chunk) b.free

theorem want_le_free (b : Buffer σ) (amount : Nat) : b.want amount ≤ b.free :=
  Nat.min_le_right _ _

/-- What becomes of a buffer by the answer to a pull into `room` bytes of its free space. What the
source wrote beyond the bytes it hands over, or wrote and then failed, stays in the free space. -/
def settle (b : Buffer σ) {room : Nat} (within : room ≤ b.free) (reply : Reply room) (source : σ)
    (residue : List UInt8) : EStateM.Result BufferError (Buffer σ) Nat :=
  match reply with
  | .failed error =>
      .error (.source error) (b.absorb source (reply.written residue) 0 (Nat.zero_le _))
  | .overrun _ _ =>
      .error (.source .overReported) (b.absorb source (reply.written residue) 0 (Nat.zero_le _))
  | .delivered bytes fits =>
      let filled := b.absorb source (reply.written residue) bytes.length (Nat.le_trans fits within)
      .ok bytes.length (filled.note (.pulled room bytes.length filled.filled))

/-- Makes one pull for `amount` bytes behind the cursor and answers with the number received. -/
def pull [ByteSource σ] (amount : Nat) : EStateM BufferError (Buffer σ) Nat := fun b =>
  let answer := ByteSource.pull b.source (b.want amount)
  b.settle (b.want_le_free amount) answer.1 answer.2 (ByteSource.residue b.source (b.want amount))

/-- The second buffer is the first with more bytes behind its window. Nothing else about them
differs but what their sources do next, what is in their free space, and what they logged. -/
structure Extends (before after : Buffer σ) (bytes : List UInt8) : Prop where
  limits_eq : after.limits = before.limits
  lineEnding_eq : after.lineEnding = before.lineEnding
  label_eq : after.label = before.label
  base_eq : after.base = before.base
  cursor_eq : after.cursor = before.cursor
  pin_eq : after.pin = before.pin
  retained_eq : after.retained = before.retained ++ bytes

namespace Extends

variable {b c d : Buffer σ} {bytes more : List UInt8}

theorem refl (b : Buffer σ) : Extends b b [] :=
  ⟨rfl, rfl, rfl, rfl, rfl, rfl, (List.append_nil _).symm⟩

theorem trans (h : Extends b c bytes) (h' : Extends c d more) : Extends b d (bytes ++ more) where
  limits_eq := h'.limits_eq.trans h.limits_eq
  lineEnding_eq := h'.lineEnding_eq.trans h.lineEnding_eq
  label_eq := h'.label_eq.trans h.label_eq
  base_eq := h'.base_eq.trans h.base_eq
  cursor_eq := h'.cursor_eq.trans h.cursor_eq
  pin_eq := h'.pin_eq.trans h.pin_eq
  retained_eq := by rw [h'.retained_eq, h.retained_eq, List.append_assoc]

theorem offset_eq (h : Extends b c bytes) : c.offset = b.offset :=
  congrArg Mark.offset h.cursor_eq

theorem place_eq (h : Extends b c bytes) : c.place = b.place :=
  congrArg Mark.toPlace h.cursor_eq

theorem filled_eq (h : Extends b c bytes) : c.filled = b.filled + bytes.length := by
  rw [← c.retained_length, h.retained_eq, List.length_append, retained_length]

theorem stop_eq (h : Extends b c bytes) : c.stop = b.stop + bytes.length := by
  rw [stop, h.base_eq, h.filled_eq, ← Nat.add_assoc, ← stop]

theorem window_eq (h : Extends b c bytes) : c.window = b.window ++ bytes := by
  rw [Buffer.window_eq, h.retained_eq, h.offset_eq, Buffer.window_eq, List.drop_append_of_le_length]
  rw [retained_length]
  exact b.offset_le_filled

theorem occupied_eq (h : Extends b c bytes) : c.occupied = b.occupied + bytes.length := by
  rw [← c.window_length, h.window_eq, List.length_append, window_length]

end Extends

/-- What a pull wrote is taken in as far as it counts, whatever else it left in the room. -/
theorem extends_absorb (b : Buffer σ) {room : Nat} (within : room ≤ b.free) (reply : Reply room)
    (source : σ) (residue : List UInt8) (fits : reply.bytes.length ≤ b.free) :
    Extends b (b.absorb source (reply.written residue) reply.bytes.length fits) reply.bytes where
  limits_eq := rfl
  lineEnding_eq := rfl
  label_eq := rfl
  base_eq := rfl
  cursor_eq := rfl
  pin_eq := rfl
  retained_eq := by
    rw [retained_absorb b source fits (Nat.le_trans (reply.written_length_le residue) within)
      (reply.bytes_length_le_written residue), reply.written_take]

theorem settle_ok {b b' : Buffer σ} {room received : Nat} {within : room ≤ b.free}
    {reply : Reply room} {source : σ} {residue : List UInt8}
    (h : b.settle within reply source residue = .ok received b') :
    received = reply.bytes.length ∧ Extends b b' reply.bytes ∧ b'.source = source ∧
      b'.log = b.log.push (.pulled room received b'.filled) := by
  cases reply with
  | failed error => cases h
  | overrun count exceeds => cases h
  | delivered bytes fits =>
      cases h
      refine ⟨rfl, ?_, rfl, rfl⟩
      have hextends := b.extends_absorb within (.delivered bytes fits) source residue
        (Nat.le_trans fits within)
      exact { hextends with }

theorem settle_error {b b' : Buffer σ} {room : Nat} {within : room ≤ b.free} {reply : Reply room}
    {source : σ} {residue : List UInt8} {error : BufferError}
    (h : b.settle within reply source residue = .error error b') :
    (∃ cause, error = .source cause) ∧ reply.bytes = [] ∧ Extends b b' [] ∧ b'.source = source ∧
      b'.log = b.log := by
  have hextends := b.extends_absorb within reply source residue
    (Nat.le_trans reply.bytes_length_le within)
  cases reply with
  | failed cause =>
      cases h
      exact ⟨⟨cause, rfl⟩, rfl, hextends, rfl, rfl⟩
  | overrun count exceeds =>
      cases h
      exact ⟨⟨.overReported, rfl⟩, rfl, hextends, rfl, rfl⟩
  | delivered bytes fits => cases h

/-! ## Requests -/

variable [ByteSource σ]

/-- Sees to it, by one pull at most, that the window holds `amount` bytes if the source has them at
hand. Answers with the number of bytes received. -/
def request (amount : Nat) : EStateM BufferError (Buffer σ) Nat := fun b =>
  if amount ≤ b.occupied then .ok 0 b
  else if b.capacity < b.offset + amount then
    .error (.overflow amount b.capacity) (b.note (.overflow amount b.capacity b.offset))
  else pull amount b

def ensure (amount : Nat) : EStateM BufferError (Buffer σ) Unit := do
  let _ ← request amount

def countAhead (amount : Nat) : EStateM BufferError (Buffer σ) Nat := do
  ensure amount
  return (← get).occupied

def lookAhead (amount : Nat) : EStateM BufferError (Buffer σ) (List UInt8) := do
  ensure amount
  return (← get).window

/-- Whether no byte comes after the cursor, as far as one pull can tell. -/
def isAtEnd : EStateM BufferError (Buffer σ) Bool := do
  ensure 1
  return (← get).occupied == 0

theorem extends_of_request {amount received : Nat} {b b' : Buffer σ}
    (h : request amount b = .ok received b') :
    ∃ bytes : List UInt8, received = bytes.length ∧ Extends b b' bytes := by
  unfold request at h
  split at h
  · cases h
    exact ⟨[], rfl, .refl b⟩
  · split at h
    · cases h
    · unfold pull at h
      obtain ⟨hreceived, hextends, -⟩ := settle_ok h
      exact ⟨_, hreceived, hextends⟩

theorem occupied_of_request {amount received : Nat} {b b' : Buffer σ}
    (h : request amount b = .ok received b') : b'.occupied = b.occupied + received := by
  obtain ⟨bytes, rfl, hextends⟩ := extends_of_request h
  exact hextends.occupied_eq

/-- Requests until the window holds `amount` bytes or a pull brings none. Answers with the number of
bytes then in the window. -/
def fill (amount : Nat) : EStateM BufferError (Buffer σ) Nat := fun b =>
  if b.occupied < amount then
    match _answer : request amount b with
    | .error error b' => .error error b'
    | .ok 0 b' => .ok b'.occupied b'
    | .ok (_ + 1) b' => fill amount b'
  else .ok b.occupied b
termination_by b => amount - b.occupied
decreasing_by
  have := occupied_of_request _answer
  omega

end Lookahead.Buffer
