import Lookahead.Source.Basic

/-!
# A source over bytes at hand

Hands over a fixed byte sequence in order, with an optional cap on the bytes of one pull so that
short reads can be had from data that would otherwise arrive at once.
-/

namespace Lookahead

/-- Bytes not yet handed over, and the most that one pull may hand over. -/
structure Slice where
  remaining : List UInt8
  most : Option Nat := none
deriving DecidableEq, Repr

namespace Slice

/-- Caps every pull. A cap of nought would look like the end of the input, so it counts as one. -/
def withMost (slice : Slice) (most : Nat) : Slice :=
  { slice with most := some (max most 1) }

/-- How many bytes the next pull into `room` hands over at most. -/
def allowance (slice : Slice) (room : Nat) : Nat :=
  match slice.most with
  | none => room
  | some most => min room most

theorem allowance_le (slice : Slice) (room : Nat) : slice.allowance room ≤ room := by
  unfold allowance
  split
  · exact Nat.le_refl _
  · exact Nat.min_le_left _ _

/-- A cap that is not nought is no reason to hand over nothing. -/
theorem allowance_pos {slice : Slice} {room : Nat} (hmost : slice.most ≠ some 0)
    (hroom : 0 < room) : 0 < slice.allowance room := by
  unfold allowance
  cases hcap : slice.most with
  | none => exact hroom
  | some most =>
      have hpos : most ≠ 0 := by
        rintro rfl
        exact hmost hcap
      exact Nat.lt_min.mpr ⟨hroom, Nat.pos_of_ne_zero hpos⟩

def pull (slice : Slice) (room : Nat) : Reply room × Slice :=
  (.delivered (slice.remaining.take (slice.allowance room))
      (Nat.le_trans (List.length_take_le _ _) (slice.allowance_le room)),
    { slice with remaining := slice.remaining.drop (slice.allowance room) })

instance : ByteSource Slice where
  pull := pull

end Slice

end Lookahead
