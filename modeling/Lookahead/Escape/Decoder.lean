import Lookahead.Escape.Error
import Lookahead.Failure
import Lookahead.Text.Unicode

/-!
# Escape decoders

A decoder turns the bytes of a matched span into the bytes they stand for, and appends those to an
output. What it appends depends on the span alone, and a decoder that fails appends nothing.

A `Decoding` is a decoder together with how it is asked: strictly, where the span has to be
decodable, or leniently, where it may turn out not to be. A decoding always has an output to append
to, and always leaves one.
-/

namespace Lookahead.Escape

/-! ## Tables -/

/-- Which byte each character of an escape stands for, as pairs of the character and its
replacement. Of two pairs for one character the first counts. -/
structure Table where
  pairs : List (UInt8 × UInt8)
deriving DecidableEq, Repr

namespace Table

/-- A table given as two columns, which must be equally long. -/
def ofColumns (characters replacements : List UInt8) : Except Misuse Table :=
  if characters.length = replacements.length then .ok ⟨characters.zip replacements⟩
  else .error .unevenColumns

/-- The replacement of a character. -/
def get? (table : Table) (character : UInt8) : Option UInt8 :=
  table.pairs.lookup character

end Table

/-! ## Decoders -/

inductive Decoder where
  | verbatim
  /-- One character, replaced by way of a table. -/
  | mapped (table : Table)
  /-- A marker and hexadecimal digits that give one raw byte. -/
  | rawByte
  /-- A marker and hexadecimal digits that give one code point. -/
  | codePoint
  /-- One or more escapes of a marker and four digits each, a backslash between them, that give
  UTF-16 units. -/
  | utf16Run
deriving DecidableEq, Repr

/-- The digits behind the marker of a span. -/
def digitsOf : List UInt8 → Except Cause (List UInt8)
  | [] => .error (.violation (.malformed 0))
  | _ :: digits => .ok digits

/-- The encoding of a code point, or the error that names it. -/
def encoded (codePoint : UInt32) : Except Cause (List UInt8) :=
  match Utf8.encode? codePoint with
  | some bytes => .ok bytes
  | none => .error (.invalidCodePoint codePoint)

/-- Cuts a run of escapes into the four digits of each: marker and digits, with a backslash before
the next escape. The marker and the backslash are not looked at. There is no cut unless the run has
one escape or more and ends with a digit. -/
def quads? : List UInt8 → Option (List (List UInt8))
  | [_, a, b, c, d] => some [[a, b, c, d]]
  | _ :: a :: b :: c :: d :: _ :: rest => (quads? rest).map ([a, b, c, d] :: ·)
  | _ => none

def unitOf (digits : List UInt8) : Except Cause UInt32 :=
  (Hex.word digits).mapError (fun byte => .violation (.notHex byte))

/-- Decodes the units of a run. A high surrogate looks at the next unit and takes it as its second
half if it is a low one; any other surrogate is an invalid code point. -/
def decodeUnits : List (List UInt8) → Except Cause (List UInt8)
  | [] => .ok []
  | [digits] => do encoded (← unitOf digits)
  | digits :: next :: rest => do
      let unit ← unitOf digits
      if Utf16.isHigh unit then
        let second ← unitOf next
        if Utf16.isLow second then
          return (← encoded (Utf16.combine unit second)) ++ (← decodeUnits rest)
        else
          throw (.invalidCodePoint unit)
      else
        return (← encoded unit) ++ (← decodeUnits (next :: rest))

namespace Decoder

def decode : Decoder → List UInt8 → Except Cause (List UInt8)
  | .verbatim, bytes => .ok bytes
  | .mapped table, [character] =>
      match table.get? character with
      | some byte => .ok [byte]
      | none => .error (.violation (.unmapped character))
  | .mapped _, bytes => .error (.violation (.malformed bytes.length))
  | .rawByte, bytes => do
      let digits ← digitsOf bytes
      match Hex.byte digits with
      | .ok byte => return [byte]
      | .error byte => throw (.violation (.notHex byte))
  | .codePoint, bytes => do
      encoded (← unitOf (← digitsOf bytes))
  | .utf16Run, bytes =>
      match quads? bytes with
      | some units => decodeUnits units
      | none => .error (.violation (.malformed bytes.length))

/-- Decodes a span onto the end of the output. -/
def apply (decoder : Decoder) (span : Span) : EStateM Error (List UInt8) Unit := fun out =>
  match decoder.decode span.bytes with
  | .ok bytes => .ok () (out ++ bytes)
  | .error cause => .error ⟨cause, span.start.toPlace⟩ out

/-- Decodes a span onto the end of the output and tells whether it could: an invalid code point is
no error here, a violation still is. -/
def tryApply (decoder : Decoder) (span : Span) : EStateM Error (List UInt8) Bool := fun out =>
  match decoder.decode span.bytes with
  | .ok bytes => .ok true (out ++ bytes)
  | .error cause =>
      if cause.isFatal then .error ⟨cause, span.start.toPlace⟩ out else .ok false out

section Ends

variable {decoder : Decoder} {span : Span} {bytes : List UInt8}

theorem apply_ok (h : decoder.decode span.bytes = .ok bytes) (out : List UInt8) :
    decoder.apply span out = .ok () (out ++ bytes) := by
  simp only [apply, h]

theorem apply_error {cause : Cause} (h : decoder.decode span.bytes = .error cause)
    (out : List UInt8) : decoder.apply span out = .error ⟨cause, span.start.toPlace⟩ out := by
  simp only [apply, h]

theorem tryApply_ok (h : decoder.decode span.bytes = .ok bytes) (out : List UInt8) :
    decoder.tryApply span out = .ok true (out ++ bytes) := by
  simp only [tryApply, h]

theorem tryApply_invalid {value : UInt32}
    (h : decoder.decode span.bytes = .error (.invalidCodePoint value)) (out : List UInt8) :
    decoder.tryApply span out = .ok false out := by
  simp only [tryApply, h]
  rfl

theorem tryApply_violation {fault : Violation}
    (h : decoder.decode span.bytes = .error (.violation fault)) (out : List UInt8) :
    decoder.tryApply span out = .error ⟨.violation fault, span.start.toPlace⟩ out := by
  simp only [tryApply, h]
  rfl

end Ends

end Decoder

/-! ## Decodings -/

/-- A decoder and how it is asked. -/
inductive Decoding where
  | strict (decoder : Decoder)
  | lenient (decoder : Decoder)
deriving DecidableEq, Repr

inductive Outcome where
  | appended
  /-- Whether bytes were appended, where that was left open. -/
  | tried (appended : Bool)
  | failed (error : Error)
deriving DecidableEq, Repr

/-- Decodes a span. Answers how it ended, and with the output. -/
def Decoding.run (decoding : Decoding) (span : Span) (out : List UInt8) : Outcome × List UInt8 :=
  match decoding with
  | .strict decoder =>
      match decoder.apply span out with
      | .ok () out' => (.appended, out')
      | .error error out' => (.failed error, out')
  | .lenient decoder =>
      match decoder.tryApply span out with
      | .ok appended out' => (.tried appended, out')
      | .error error out' => (.failed error, out')

end Lookahead.Escape
