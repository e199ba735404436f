import Lookahead.Source.Basic

/-!
# A scripted source

A source that plays a list of steps, one for each read: bytes, an end of the input that need not be
final, a failure, a claim of too many bytes, or an interruption. An interruption is not an answer:
the pull reads on at once, so it is never seen from outside.
-/

namespace Lookahead

inductive Script.Step where
  /-- These bytes; what does not fit into the room stays for the next read. -/
  | data (bytes : List UInt8)
  /-- No bytes, although later steps may bring more. -/
  | endOfInput
  | failure (text : String)
  /-- A claim of this many bytes beyond the room; an excess of nought counts as one. -/
  | overReport (excess : Nat)
  /-- Nothing happened and the read has to be made again. -/
  | interrupted
deriving DecidableEq, Repr

/-- The steps still to be played. With none left the input has ended. -/
structure Script where
  steps : List Script.Step
deriving DecidableEq, Repr

namespace Script

/-- What is left of a data step whose first `room` bytes were handed over: an empty one is done. -/
def leftover (bytes : List UInt8) (room : Nat) : List Step :=
  if bytes.drop room = [] then [] else [.data (bytes.drop room)]

/-- Plays the steps up to the first that is no interruption. -/
def play (room : Nat) : List Step → Reply room × List Step
  | [] => (.delivered [] (Nat.zero_le _), [])
  | .data bytes :: rest =>
      (.delivered (bytes.take room) (List.length_take_le _ _), leftover bytes room ++ rest)
  | .endOfInput :: rest => (.delivered [] (Nat.zero_le _), rest)
  | .failure text :: rest => (.failed ⟨text⟩, rest)
  | .overReport excess :: rest =>
      (.overrun (room + max excess 1)
        (Nat.lt_add_of_pos_right (Nat.lt_of_lt_of_le Nat.one_pos (Nat.le_max_right _ _))), rest)
  | .interrupted :: rest => play room rest

def pull (script : Script) (room : Nat) : Reply room × Script :=
  let (reply, rest) := play room script.steps
  (reply, ⟨rest⟩)

instance : ByteSource Script where
  pull := pull

end Script

end Lookahead
