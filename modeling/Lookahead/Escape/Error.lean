import Lookahead.Place
import Lookahead.Text.Spelling

/-!
# Failures of escape decoding

A decoder can meet bad input that no grammar rules out, such as a lone surrogate; that is an
ordinary error. It can also be handed a span that the grammar should never have matched; that is a
`Violation`, and fatal, since the grammar and its decoders then disagree.
-/

namespace Lookahead.Escape

/-- A span that its grammar rule should not have matched. -/
inductive Violation where
  | unmapped (byte : UInt8)
  /-- A byte in the place of a hexadecimal digit. -/
  | notHex (byte : UInt8)
  /-- A span of a length that no escape has. -/
  | malformed (length : Nat)
deriving DecidableEq, Repr

/-- The violation in words. Bytes shown as characters are read as Latin-1. -/
def Violation.message : Violation → String
  | .unmapped byte => "character " ++ Quoted.char (Char.ofNat byte.toNat) ++ " has no mapping"
  | .notHex byte => "byte 0x" ++ Hex.pair byte ++ " is not a hexadecimal digit"
  | .malformed length => "escape span of " ++ toString length ++ " bytes has the wrong shape"

inductive Cause where
  /-- The escape names no Unicode scalar value. -/
  | invalidCodePoint (value : UInt32)
  | violation (fault : Violation)
deriving DecidableEq, Repr

namespace Cause

def message : Cause → String
  | .invalidCodePoint value => "invalid escaped unicode code point 0x" ++ Hex.upper value.toNat
  | .violation fault => "grammar/action mismatch: " ++ fault.message

/-- Violations are fatal, bad input is not. -/
def isFatal : Cause → Bool
  | .invalidCodePoint _ => false
  | .violation _ => true

end Cause

structure Error where
  cause : Cause
  place : Place
deriving DecidableEq, Repr

def Error.message (error : Error) : String :=
  error.cause.message ++ " at " ++ toString error.place.line ++ ":" ++ toString error.place.column

end Lookahead.Escape
