import Lookahead.Buffer.Basic

/-!
# Compaction

Dropping consumed bytes from the front. It only happens once more than a chunk of them has gathered,
and never beyond the pin, so a live guard finds the bytes it has to go back to.
-/

namespace Lookahead.Buffer

variable {σ : Type}

/-- How many bytes from the front are neither pinned nor ahead of the cursor. -/
def droppable (b : Buffer σ) : Nat :=
  match b.pin with
  | none => b.offset
  | some pin => min (pin - b.base) b.offset

theorem droppable_le_offset (b : Buffer σ) : b.droppable ≤ b.offset := by
  unfold droppable
  split
  · exact Nat.le_refl _
  · exact Nat.min_le_right _ _

/-- Drops the first `count` retained bytes, all of them consumed: the others move to the front of
the arena, over the dropped ones and perhaps over some of themselves. -/
def dropFront (b : Buffer σ) (count : Nat) (consumed : count ≤ b.offset) : Buffer σ :=
  { b with
    arena := Arena.moveToFront b.arena count b.filled
    filled := b.filled - count
    base := b.base + count
    cursor := { b.cursor with offset := b.offset - count }
    arena_size := by rw [Arena.moveToFront_size, b.arena_size]
    cursor_le := Nat.sub_le_sub_right b.cursor_le _
    filled_le := Nat.le_trans (Nat.sub_le _ _) b.filled_le
    cursor_byte := by
      have hbyte := b.base_add_offset
      unfold place at hbyte
      simp only
      omega }

/-- Compacts if more than a chunk can be dropped, and tells when a pin puts that off. -/
def discard (b : Buffer σ) : Buffer σ :=
  if b.limits.chunk < b.droppable then
    let compact := b.dropFront b.droppable b.droppable_le_offset
    compact.note (.compacted b.droppable compact.filled)
  else if b.limits.chunk < b.offset then b.note (.deferred b.droppable b.offset)
  else b

/-! ## What compaction leaves as it is -/

/-- The second buffer is the first without its `count` oldest bytes. Nothing else about them differs
but where in the arena the bytes stand, and what they logged. -/
structure Drops (before after : Buffer σ) (count : Nat) : Prop where
  le_offset : count ≤ before.offset
  limits_eq : after.limits = before.limits
  lineEnding_eq : after.lineEnding = before.lineEnding
  label_eq : after.label = before.label
  source_eq : after.source = before.source
  place_eq : after.place = before.place
  pin_eq : after.pin = before.pin
  base_eq : after.base = before.base + count
  retained_eq : after.retained = before.retained.drop count

/-- How many bytes compaction drops: all that it may, or none. -/
def shift (b : Buffer σ) : Nat :=
  if b.limits.chunk < b.droppable then b.droppable else 0

theorem shift_le_droppable (b : Buffer σ) : b.shift ≤ b.droppable := by
  unfold shift
  split
  · exact Nat.le_refl _
  · exact Nat.zero_le _

theorem drops_dropFront (b : Buffer σ) {count : Nat} (consumed : count ≤ b.offset) :
    Drops b (b.dropFront count consumed) count where
  le_offset := consumed
  limits_eq := rfl
  lineEnding_eq := rfl
  label_eq := rfl
  source_eq := rfl
  place_eq := rfl
  pin_eq := rfl
  base_eq := rfl
  retained_eq := Arena.moveToFront_take b.filled_le_capacity

theorem drops_discard (b : Buffer σ) : Drops b b.discard b.shift := by
  unfold discard shift
  split
  · exact { b.drops_dropFront b.droppable_le_offset with }
  · have hsame : Drops b b 0 := ⟨Nat.zero_le _, rfl, rfl, rfl, rfl, rfl, rfl, rfl, rfl⟩
    split
    · exact { hsame with }
    · exact hsame

theorem Drops.stop_eq {b c : Buffer σ} {count : Nat} (h : Drops b c count) : c.stop = b.stop := by
  have hcount := Nat.le_trans h.le_offset b.offset_le_filled
  have hlength := congrArg List.length h.retained_eq
  rw [List.length_drop, retained_length, retained_length] at hlength
  rw [stop, stop, h.base_eq]
  omega

end Lookahead.Buffer
