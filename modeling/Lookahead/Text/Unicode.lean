/-!
# Unicode

The two encodings of code points. In UTF-8 there is a strict decoder beside the encoding, which
accepts the shortest form only and says where the first bad sequence starts and how many of its
bytes are bad. In UTF-16 code points above `0xFFFF` are written as two units, a high surrogate and a
low one.
-/

/-! ## UTF-8 -/

namespace Lookahead.Utf8

/-- The encoding of a code point. A surrogate or a value above `0x10FFFF` has none. -/
def encode? (codePoint : UInt32) : Option (List UInt8) :=
  if valid : codePoint.isValidChar then some (String.utf8EncodeChar ⟨codePoint, valid⟩) else none

/-- Where a byte sequence stops being UTF-8. -/
structure Malformed where
  /-- How many bytes are good before the bad sequence. -/
  validUpTo : Nat
  /-- How many bytes the bad sequence has; `none` if the input ended within a sequence that was
  good so far. -/
  badLength : Option Nat
deriving DecidableEq, Repr

/-- A sequence that has begun: what is still to come of it. -/
structure Pending where
  /-- How many continuation bytes are missing, less one. -/
  missing : Nat
  least : UInt8
  greatest : UInt8
  /-- The payload bits read so far. -/
  bits : Nat
  /-- How many bytes of the sequence were read. -/
  seen : Nat
deriving DecidableEq, Repr

/-- What the first byte of a sequence promises. The bounds on the second byte rule out longer forms
than needed, surrogates, and values above `0x10FFFF`. -/
def lead? (byte : UInt8) : Option Pending :=
  if 0xC2 ≤ byte ∧ byte ≤ 0xDF then some ⟨0, 0x80, 0xBF, byte.toNat - 0xC0, 1⟩
  else if byte = 0xE0 then some ⟨1, 0xA0, 0xBF, 0, 1⟩
  else if byte = 0xED then some ⟨1, 0x80, 0x9F, 0xD, 1⟩
  else if 0xE1 ≤ byte ∧ byte ≤ 0xEF then some ⟨1, 0x80, 0xBF, byte.toNat - 0xE0, 1⟩
  else if byte = 0xF0 then some ⟨2, 0x90, 0xBF, 0, 1⟩
  else if 0xF1 ≤ byte ∧ byte ≤ 0xF3 then some ⟨2, 0x80, 0xBF, byte.toNat - 0xF0, 1⟩
  else if byte = 0xF4 then some ⟨2, 0x80, 0x8F, 4, 1⟩
  else none

/-- The payload bits once a continuation byte is added. -/
def Pending.shiftIn (pending : Pending) (byte : UInt8) : Nat :=
  pending.bits * 64 + (byte.toNat - 0x80)

/-- Decodes from `position`, where a sequence may have begun that started there. -/
def decodeFrom (position : Nat) : Option Pending → List UInt8 → Except Malformed (List Char)
  | none, [] => .ok []
  | some _, [] => .error ⟨position, none⟩
  | none, byte :: rest =>
      if byte < 0x80 then
        (decodeFrom (position + 1) none rest).map (Char.ofNat byte.toNat :: ·)
      else
        match lead? byte with
        | none => .error ⟨position, some 1⟩
        | some pending => decodeFrom position (some pending) rest
  | some pending, byte :: rest =>
      if pending.least ≤ byte ∧ byte ≤ pending.greatest then
        match pending.missing with
        | 0 =>
            (decodeFrom (position + pending.seen + 1) none rest).map
              (Char.ofNat (pending.shiftIn byte) :: ·)
        | missing + 1 =>
            decodeFrom position
              (some ⟨missing, 0x80, 0xBF, pending.shiftIn byte, pending.seen + 1⟩) rest
      else .error ⟨position, some pending.seen⟩

/-- The characters a byte sequence encodes. -/
def decode (bytes : List UInt8) : Except Malformed (List Char) :=
  decodeFrom 0 none bytes

end Lookahead.Utf8

/-! ## UTF-16 -/

namespace Lookahead.Utf16

def isHigh (unit : UInt32) : Bool :=
  0xD800 ≤ unit && unit ≤ 0xDBFF

def isLow (unit : UInt32) : Bool :=
  0xDC00 ≤ unit && unit ≤ 0xDFFF

def combine (high low : UInt32) : UInt32 :=
  (((high &&& 0x3FF) <<< 10) ||| (low &&& 0x3FF)) + 0x10000

end Lookahead.Utf16
