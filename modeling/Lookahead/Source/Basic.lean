/-!
# Byte sources

A source is pulled, never pushed: the buffer names how much room it has and the source answers with
at most that many bytes. No bytes means that the input has ended for now; fewer bytes than there is
room for is a valid short read.
-/

namespace Lookahead

/-- A source's own account of why it failed. -/
structure SourceError where
  message : String
deriving DecidableEq, Repr

/-- The answer to a pull into `room` bytes of free space. -/
inductive Reply (room : Nat) where
  /-- These bytes were written into the room. -/
  | delivered (bytes : List UInt8) (fits : bytes.length ≤ room)
  /-- The source claims to have written more bytes than there was room for. -/
  | overrun (count : Nat) (exceeds : room < count)
  | failed (error : SourceError)
deriving DecidableEq, Repr

namespace Reply

variable {room : Nat}

def bytes : Reply room → List UInt8
  | .delivered bytes _ => bytes
  | _ => []

theorem bytes_length_le (reply : Reply room) : reply.bytes.length ≤ room := by
  cases reply with
  | delivered bytes fits => exact fits
  | overrun count exceeds => exact Nat.zero_le _
  | failed error => exact Nat.zero_le _

/-- What the room begins with after a pull: the bytes handed over, and behind them whatever else the
source left there. -/
def written (reply : Reply room) (residue : List UInt8) : List UInt8 :=
  (reply.bytes ++ residue).take room

theorem written_length_le (reply : Reply room) (residue : List UInt8) :
    (reply.written residue).length ≤ room :=
  List.length_take_le _ _

theorem bytes_length_le_written (reply : Reply room) (residue : List UInt8) :
    reply.bytes.length ≤ (reply.written residue).length := by
  have hbytes := reply.bytes_length_le
  rw [written, List.length_take, List.length_append]
  omega

theorem written_take (reply : Reply room) (residue : List UInt8) :
    (reply.written residue).take reply.bytes.length = reply.bytes := by
  rw [written, List.take_take, Nat.min_eq_left reply.bytes_length_le, List.take_left]

end Reply

/-- A pull-based producer of bytes, given as a state and the pull that changes it. A source may use
the whole room as it likes, also when it hands over little or fails: `residue` is what a pull then
leaves behind the bytes it hands over. -/
class ByteSource (σ : Type) where
  pull : σ → (room : Nat) → Reply room × σ
  residue : σ → (room : Nat) → List UInt8 := fun _ _ => []

end Lookahead
