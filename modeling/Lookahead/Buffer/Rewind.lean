import Lookahead.Buffer.Basic
import Lookahead.Effect

/-!
# Going back

A mark is good for as long as its byte is retained. Only the mark's place counts; its offset is
worked out anew, since the buffer may have been compacted in between.
-/

namespace Lookahead.Buffer

variable {σ : Type}

/-- Whether the byte of a place is retained, the end of the retained bytes included. -/
def Holds (b : Buffer σ) (place : Place) : Prop :=
  b.base ≤ place.byte ∧ place.byte ≤ b.stop

instance (b : Buffer σ) (place : Place) : Decidable (b.Holds place) :=
  inferInstanceAs (Decidable (_ ∧ _))

def restore (place : Place) : EStateM BufferError (Buffer σ) Unit := fun b =>
  if held : b.Holds place then .ok () (b.moveTo place held.1 held.2)
  else .error (.rewindPastWindow place.byte b.base) b

theorem moves_restore (place : Place) (b : Buffer σ) : Moves b (stateOf (restore place b)) := by
  unfold restore
  split
  · exact { Moves.refl b with }
  · exact .refl b

def span (b : Buffer σ) (place : Place) : Except BufferError Span :=
  if b.Holds place then
    if b.place.byte < place.byte then .error (.markAhead place.byte b.place.byte)
    else .ok
      { bytes := Arena.slice b.arena (place.byte - b.base) b.offset
        start := ⟨place, place.byte - b.base⟩
        source := b.label }
  else .error (.rewindPastWindow place.byte b.base)

/-! ## The three answers to asking for a span -/

variable {b : Buffer σ} {place : Place}

theorem span_of_holds (held : b.Holds place) (consumed : place.byte ≤ b.place.byte) :
    b.span place = .ok
      { bytes := Arena.slice b.arena (place.byte - b.base) b.offset
        start := ⟨place, place.byte - b.base⟩
        source := b.label } := by
  unfold span
  rw [if_pos held, if_neg (Nat.not_lt_of_le consumed)]

theorem span_of_ahead (held : b.Holds place) (ahead : b.place.byte < place.byte) :
    b.span place = .error (.markAhead place.byte b.place.byte) := by
  unfold span
  rw [if_pos held, if_pos ahead]

theorem span_of_lost (lost : ¬b.Holds place) :
    b.span place = .error (.rewindPastWindow place.byte b.base) :=
  if_neg lost

/-- What is cut out in front of the cursor are retained bytes. -/
theorem slice_consumed (b : Buffer σ) (start : Nat) :
    Arena.slice b.arena start b.offset = (b.retained.take b.offset).drop start := by
  rw [Arena.slice_eq, retained, List.take_take, Nat.min_eq_left b.offset_le_filled]

end Lookahead.Buffer
