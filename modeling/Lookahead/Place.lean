import Lookahead.LineEnding

/-!
# Places in a stream

A `Place` counts the bytes of the stream that lie before it and gives the line and the column it
stands on, both from one. A `Mark` is a place together with the offset it had in the buffer when it
was taken, and a `Position` is a place together with the label of the stream it belongs to. A `Span`
is the bytes between a mark and the cursor, lent to a decoder together with where they began.
-/

namespace Lookahead

/-- A point of the stream. A fresh place stands at the start: byte nought, line one, column one. -/
structure Place where
  /-- How many bytes of the stream lie before this place. -/
  byte : Nat := 0
  line : Nat := 1
  column : Nat := 1
deriving DecidableEq, Repr

instance : Inhabited Place := ⟨{}⟩

namespace Place

/-- The place behind one more byte: behind `lineByte` a new line starts. -/
def step (lineByte : UInt8) (place : Place) (byte : UInt8) : Place :=
  if byte = lineByte then ⟨place.byte + 1, place.line + 1, 1⟩
  else ⟨place.byte + 1, place.line, place.column + 1⟩

/-- The place behind `bytes`, each `lineByte` among them starting a line. -/
def advance (lineByte : UInt8) (place : Place) (bytes : List UInt8) : Place :=
  bytes.foldl (step lineByte) place

/-- The place `count` bytes further on the same line. -/
def alongLine (place : Place) (count : Nat) : Place :=
  ⟨place.byte + count, place.line, place.column + count⟩

/-- The place behind a line ending of `count` bytes. -/
def toNextLine (place : Place) (count : Nat) : Place :=
  ⟨place.byte + count, place.line + 1, 1⟩

@[simp] theorem step_byte (lineByte : UInt8) (place : Place) (byte : UInt8) :
    (place.step lineByte byte).byte = place.byte + 1 := by
  unfold step; split <;> rfl

@[simp] theorem advance_nil (lineByte : UInt8) (place : Place) :
    place.advance lineByte [] = place := rfl

@[simp] theorem advance_cons (lineByte : UInt8) (place : Place) (byte : UInt8)
    (bytes : List UInt8) :
    place.advance lineByte (byte :: bytes) = (place.step lineByte byte).advance lineByte bytes :=
  rfl

/-- Consuming in two portions is consuming at once. -/
theorem advance_append (lineByte : UInt8) (place : Place) (first second : List UInt8) :
    place.advance lineByte (first ++ second)
      = (place.advance lineByte first).advance lineByte second := by
  simp [advance, List.foldl_append]

@[simp] theorem advance_byte (lineByte : UInt8) (place : Place) (bytes : List UInt8) :
    (place.advance lineByte bytes).byte = place.byte + bytes.length := by
  induction bytes generalizing place with
  | nil => rfl
  | cons byte bytes ih => simp [ih]; omega

@[simp] theorem alongLine_byte (place : Place) (count : Nat) :
    (place.alongLine count).byte = place.byte + count := rfl

@[simp] theorem toNextLine_byte (place : Place) (count : Nat) :
    (place.toNextLine count).byte = place.byte + count := rfl

/-- Without a line byte there is nothing to count. -/
theorem advance_of_not_mem {lineByte : UInt8} {bytes : List UInt8} {place : Place}
    (h : lineByte ∉ bytes) : place.advance lineByte bytes = place.alongLine bytes.length := by
  induction bytes generalizing place with
  | nil => rfl
  | cons byte bytes ih =>
      rw [List.mem_cons, not_or] at h
      obtain ⟨hbyte, hbytes⟩ := h
      rw [advance_cons, ih hbytes, step, if_neg (Ne.symm hbyte)]
      unfold alongLine
      simp only [List.length_cons, Nat.add_assoc, Nat.add_comm 1]

end Place

/-- A place, with the offset into the buffer's retained bytes that it had when it was taken. The
offset goes stale when the buffer compacts; going back to a mark never uses it. -/
structure Mark extends Place where
  offset : Nat := 0
deriving DecidableEq, Repr

instance : Inhabited Mark := ⟨{}⟩

/-- A place named for a reader: with the label of the stream. -/
structure Position extends Place where
  source : String
deriving DecidableEq, Repr

namespace Position

def ofPlace (place : Place) (source : String) : Position :=
  ⟨place, source⟩

/-- A position as a diagnostic shows it: label, line and column. -/
def render (position : Position) : String :=
  position.source ++ ":" ++ toString position.line ++ ":" ++ toString position.column

end Position

/-- A stretch of consumed bytes. -/
structure Span where
  bytes : List UInt8
  start : Mark
  source : String
deriving DecidableEq, Repr

def Span.position (span : Span) : Position :=
  .ofPlace span.start.toPlace span.source

end Lookahead
