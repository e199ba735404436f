import Lookahead.Buffer.Request
import Lookahead.Effect

/-!
# Consuming

Moving the cursor forward over the window. `consume` looks at every byte to count lines; the other
two trust the caller's word about line endings. Consuming more than the window holds is a misuse and
changes nothing.
-/

namespace Lookahead.Buffer

variable {σ : Type}

/-- Moves the cursor forward to a place `count` bytes on, for a `count` within the window. -/
def stepTo (b : Buffer σ) (place : Place) (count : Nat)
    (at_count : place.byte = b.place.byte + count) (within : count ≤ b.occupied) : Buffer σ :=
  b.moveTo place
    (by
      have hbase := b.base_le_byte
      omega)
    (by
      have hbyte := b.base_add_offset
      have hfilled := b.offset_add_occupied
      unfold stop
      omega)

theorem length_front {b : Buffer σ} {count : Nat} (within : count ≤ b.occupied) :
    (b.front count).length = count := by
  simp [front_eq]; omega

/-- Consumes `count` bytes, counting the lines among them. -/
def consume (count : Nat) : EStateM Misuse (Buffer σ) Unit := fun b =>
  if within : count ≤ b.occupied then
    .ok () (b.stepTo (b.place.advance b.lineEnding.lineByte (b.front count)) count
      (by rw [Place.advance_byte, length_front within]) within)
  else .error .consumePastWindow b

/-- Consumes `count` bytes that lie on one line. -/
def consumeInLine (count : Nat) : EStateM Misuse (Buffer σ) Unit := fun b =>
  if within : count ≤ b.occupied then
    if (b.front count).contains b.lineEnding.lineByte then .error .inLineOverLineByte b
    else .ok () (b.stepTo (b.place.alongLine count) count (Place.alongLine_byte _ _) within)
  else .error .inLinePastWindow b

def consumeToNextLine (count : Nat) : EStateM Misuse (Buffer σ) Unit := fun b =>
  if within : count ≤ b.occupied then
    .ok () (b.stepTo (b.place.toNextLine count) count (Place.toNextLine_byte _ _) within)
  else .error .nextLinePastWindow b

/-- Consumes the line ending at the front of the window, if the policy recognises one there. -/
def passLineEnding : EStateM BufferError (Buffer σ) Bool := fun b =>
  match found : b.lineEnding.match? (b.front b.lineEnding.maxWidth) with
  | none => .ok false b
  | some width =>
      .ok true (b.stepTo (b.place.toNextLine width) width (Place.toNextLine_byte _ _) (by
        have hwidth := LineEnding.match?_le found
        rw [front_eq, List.length_take, window_length] at hwidth
        omega))

/-- Consumes the line ending the cursor stands at, if the policy recognises one in the window after
one request for its longest. -/
def consumeLineEnding [ByteSource σ] : EStateM BufferError (Buffer σ) Bool := do
  ensure (← get).lineEnding.maxWidth
  passLineEnding

theorem consumeLineEnding_eq [ByteSource σ] (b : Buffer σ) :
    consumeLineEnding b = match request b.lineEnding.maxWidth b with
      | .ok _ c => passLineEnding c
      | .error error c => .error error c := by
  unfold consumeLineEnding ensure
  rw [bind_apply, get_apply]
  simp only
  rw [bind_apply, bind_apply]
  cases request b.lineEnding.maxWidth b <;> rfl

theorem consume_ok {b : Buffer σ} {count : Nat} (within : count ≤ b.occupied) :
    ∃ c, consume count b = .ok () c ∧
      c.place = b.place.advance b.lineEnding.lineByte (b.window.take count) := by
  refine ⟨_, dif_pos within, ?_⟩
  rw [← front_eq]
  rfl

theorem consumeInLine_ok {b : Buffer σ} {count : Nat} (within : count ≤ b.occupied)
    (hline : b.lineEnding.lineByte ∉ b.window.take count) :
    ∃ c, consumeInLine count b = .ok () c ∧ c.place = b.place.alongLine count := by
  have hfree : ¬(b.front count).contains b.lineEnding.lineByte = true := by
    rw [front_eq, List.contains_iff_mem]
    exact hline
  unfold consumeInLine
  rw [dif_pos within, if_neg hfree]
  exact ⟨_, rfl, rfl⟩

/-- Over bytes that lie on one line there is nothing to count. -/
theorem consumeInLine_eq_consume {b : Buffer σ} {count : Nat} (within : count ≤ b.occupied)
    (hline : b.lineEnding.lineByte ∉ b.window.take count) :
    consumeInLine count b = consume count b := by
  rw [← front_eq] at hline
  have hplace : b.place.advance b.lineEnding.lineByte (b.front count) = b.place.alongLine count := by
    rw [Place.advance_of_not_mem hline, length_front within]
  have hfree : ¬(b.front count).contains b.lineEnding.lineByte = true := by
    rw [List.contains_iff_mem]
    exact hline
  unfold consumeInLine consume
  rw [dif_pos within, dif_pos within, if_neg hfree]
  simp only [hplace]

theorem consumeInLine_over {b : Buffer σ} {count : Nat} (within : count ≤ b.occupied)
    (hline : b.lineEnding.lineByte ∈ b.window.take count) :
    consumeInLine count b = .error .inLineOverLineByte b := by
  have hover : (b.front count).contains b.lineEnding.lineByte = true := by
    rw [front_eq, List.contains_iff_mem]
    exact hline
  unfold consumeInLine
  rw [dif_pos within, if_pos hover]

theorem consumeInLine_past {b : Buffer σ} {count : Nat} (past : ¬count ≤ b.occupied) :
    consumeInLine count b = .error .inLinePastWindow b :=
  dif_neg past

theorem passLineEnding_some {b : Buffer σ} {width : Nat}
    (h : b.lineEnding.match? (b.front b.lineEnding.maxWidth) = some width) :
    ∃ c, passLineEnding b = .ok true c ∧ c.place = b.place.toNextLine width := by
  unfold passLineEnding
  split
  · rename_i hnone
    rw [hnone] at h
    cases h
  · rename_i hsome
    cases hsome.symm.trans h
    exact ⟨_, rfl, rfl⟩

theorem passLineEnding_none {b : Buffer σ}
    (h : b.lineEnding.match? (b.front b.lineEnding.maxWidth) = none) :
    passLineEnding b = .ok false b := by
  unfold passLineEnding
  split
  · rfl
  · rename_i hsome
    rw [hsome] at h
    cases h

/-! ## What consuming leaves as it is -/

theorem moves_consume (count : Nat) (b : Buffer σ) : Moves b (stateOf (consume count b)) := by
  unfold consume
  split
  · exact { Moves.refl b with }
  · exact .refl b

theorem moves_consumeInLine (count : Nat) (b : Buffer σ) :
    Moves b (stateOf (consumeInLine count b)) := by
  unfold consumeInLine
  split
  · split
    · exact .refl b
    · exact { Moves.refl b with }
  · exact .refl b

theorem moves_consumeToNextLine (count : Nat) (b : Buffer σ) :
    Moves b (stateOf (consumeToNextLine count b)) := by
  unfold consumeToNextLine
  split
  · exact { Moves.refl b with }
  · exact .refl b

theorem moves_passLineEnding (b : Buffer σ) : Moves b (stateOf (passLineEnding b)) := by
  unfold passLineEnding
  split
  · exact .refl b
  · exact { Moves.refl b with }

end Lookahead.Buffer
