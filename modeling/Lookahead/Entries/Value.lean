import Lookahead.Entries.Basic

/-!
# Values of entries

A value is read piece by piece: an escape, or a run of bytes that stand for themselves. The pieces
end at the closing quote; reading them ends because each takes a byte.
-/

namespace Lookahead.Entries

open Scan

variable {σ : Type} [ByteSource σ]

/-! ## Escapes -/

def hexDigits : Nat → Scan σ (Option Unit)
  | 0 => return some ()
  | count + 1 => do
      let some _ ← byteIf Hex.isDigit | return none
      hexDigits count

/-- One UTF-16 unit: a marker and four digits. -/
def unit : Scan σ (Option Unit) := do
  let some _ ← byteIf (· == 0x75) | return none
  hexDigits 4

theorem steady_hexDigits (count : Nat) : Steady (hexDigits count : Scan σ (Option Unit)) := by
  induction count with
  | zero => exact steady_pure _
  | succ count ih =>
    refine steady_bind (steady_byteIf _) (fun found => ?_)
    cases found
    · exact steady_pure _
    · exact ih

theorem steady_unit : Steady (unit : Scan σ (Option Unit)) := by
  refine steady_bind (steady_byteIf _) (fun found => ?_)
  cases found
  · exact steady_pure _
  · exact steady_hexDigits 4

/-- A further unit of a run, behind a backslash. -/
def nextUnit : Scan σ (Option Unit) := do
  let some _ ← byteIf (· == backslash) | return none
  unit

theorem steady_nextUnit : Steady (nextUnit : Scan σ (Option Unit)) := by
  refine steady_bind (steady_byteIf _) (fun found => ?_)
  cases found
  · exact steady_pure _
  · exact steady_unit

theorem advances_nextUnit : Advances (nextUnit : Scan σ (Option Unit)) :=
  advances_bind (advances_byteIf _) (fun _ => steady_unit) (fun _ => rfl)

/-- The units that follow the first of a run. A backslash that begins something else is left. -/
def moreUnits : Scan σ Unit :=
  many (attempt nextUnit) (steady_attempt steady_nextUnit)
    (advances_attempt steady_nextUnit advances_nextUnit)

def units : Scan σ (Option Unit) := do
  let some _ ← unit | return none
  moreUnits
  return some ()

/-- What follows the backslash of an escape, decoded. -/
def escaped : Scan σ (Option (List UInt8)) := do
  let start := (← get).place
  if (← byteIf (fun byte => (simpleEscapes.get? byte).isSome)).isSome then
    return some (← decodeSince start (.mapped simpleEscapes))
  let some _ ← units | return none
  return some (← decodeSince start .utf16Run)

def escape : Scan σ (Option (List UInt8)) :=
  attempt do
    let some _ ← byteIf (· == backslash) | return none
    escaped

theorem steady_units : Steady (units : Scan σ (Option Unit)) := by
  refine steady_bind steady_unit (fun found => ?_)
  cases found
  · exact steady_pure _
  · exact steady_bind (steady_many _ _) (fun _ => steady_pure _)

theorem steady_escaped : Steady (escaped : Scan σ (Option (List UInt8))) := by
  intro b
  refine steady_bind (steady_byteIf _) (fun found => ?_) b
  split
  · exact steady_bind (steady_decodeSince _ _) (fun _ => steady_pure _)
  · refine steady_bind steady_units (fun found => ?_)
    cases found
    · exact steady_pure _
    · exact steady_bind (steady_decodeSince _ _) (fun _ => steady_pure _)

theorem steady_escape : Steady (escape : Scan σ (Option (List UInt8))) := by
  refine steady_attempt (steady_bind (steady_byteIf _) (fun found => ?_))
  cases found
  · exact steady_pure _
  · exact steady_escaped

theorem advances_escape : Advances (escape : Scan σ (Option (List UInt8))) := by
  refine advances_attempt (steady_bind (steady_byteIf _) (fun found => ?_))
    (advances_bind (advances_byteIf _) (fun _ => steady_escaped) (fun _ => rfl))
  cases found
  · exact steady_pure _
  · exact steady_escaped

/-! ## Pieces -/

/-- What one round of reading a value finds. -/
inductive Piece where
  | close
  | text (bytes : List UInt8)
  /-- Neither: the line ends, or an escape is none. -/
  | stuck
deriving DecidableEq, Repr

def piece : Scan σ Piece := do
  if (← byteIf (· == quote)).isSome then return .close
  if let some bytes ← escape then return .text bytes
  let span ← capture (skipWhile isPlain)
  return if span.bytes.isEmpty then .stuck else .text span.bytes

theorem steady_piece : Steady (piece : Scan σ Piece) := by
  refine steady_bind (steady_byteIf _) (fun found => ?_)
  split
  · exact steady_pure _
  · refine steady_bind steady_escape (fun decoded => ?_)
    cases decoded
    · exact steady_bind (steady_capture (steady_skipWhile _)) (fun _ => steady_pure _)
    · exact steady_pure _

/-- A piece with bytes of the value consumes something: an escape has a backslash, and a run of
plain bytes that consumes nothing is none. -/
theorem piece_text_byte_lt {b b' : Buffer σ} {bytes : List UInt8}
    (h : piece b = .ok (.text bytes) b') : b.place.byte < b'.place.byte := by
  simp only [piece, bind_apply] at h
  cases closing : byteIf (· == quote) b with
  | error fault c => simp [closing] at h
  | ok found c =>
    have start := (steady_byteIf _ _ _ _ closing).byte_le
    simp only [closing] at h
    split at h
    · cases h
    · simp only [bind_apply] at h
      cases tried : escape c with
      | error fault d => simp [tried] at h
      | ok decoded d =>
        have onward := (steady_escape _ _ _ tried).byte_le
        simp only [tried] at h
        cases decoded with
        | some decoded =>
          have := advances_escape _ _ _ tried
          cases h
          omega
        | none =>
          simp only [bind_apply] at h
          cases taken : capture (skipWhile isPlain) d with
          | error fault e => simp [taken] at h
          | ok span e =>
            have length := length_of_capture taken
            simp only [taken, pure_apply] at h
            cases empty : span.bytes with
            | nil => simp [empty] at h
            | cons byte rest =>
              simp only [empty, List.length_cons] at length h
              cases h
              omega

/-- The pieces of a value up to the closing quote, joined. -/
def pieces : Scan σ (Option (List UInt8)) := fun b =>
  match _answer : piece b with
  | .error fault b' => .error fault b'
  | .ok .close b' => .ok (some []) b'
  | .ok .stuck b' => .ok none b'
  | .ok (.text bytes) b' =>
      match pieces b' with
      | .error fault b'' => .error fault b''
      | .ok rest b'' => .ok (rest.map (bytes ++ ·)) b''
termination_by b => b.reach
decreasing_by
  exact (steady_piece _ _ _ _answer).reach_lt (piece_text_byte_lt _answer)

def value : Scan σ (Option (List UInt8)) :=
  attempt do
    let some _ ← byteIf (· == quote) | return none
    pieces

end Lookahead.Entries
