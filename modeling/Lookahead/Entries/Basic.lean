import Lookahead.Scan.Progress

/-!
# Entry documents

A document of lines `key = "value"`, read through a buffer. Each line is tried under an attempt, its
value under another, and each escape under a third; between lines the buffer may compact, so a line
is the most that has to fit.

```text
document   = (line-ending / assignment)* end
assignment = blanks key blanks "=" blanks value blanks (line-ending / end)
key        = (letter / digit / "_")+
value      = quote (escape / plain+)* quote
escape     = backslash (one of n t " \ / | unit (backslash unit)*)
unit       = "u" four hexadecimal digits
```

This module holds the bytes of the format; `Value` reads what stands between quotes, `Document` the
rest.
-/

namespace Lookahead

/-- A key and the bytes its value stands for. -/
structure Entry where
  key : String
  value : List UInt8
deriving DecidableEq, Repr

namespace Entries

/-! ## Bytes of the format -/

def quote : UInt8 := 0x22

def backslash : UInt8 := 0x5C

def isBlank (byte : UInt8) : Bool :=
  byte == 0x20 || byte == 0x09

def isKeyByte (byte : UInt8) : Bool :=
  (0x30 ≤ byte && byte ≤ 0x39) || (0x41 ≤ byte && byte ≤ 0x5A) || (0x61 ≤ byte && byte ≤ 0x7A)
    || byte == 0x5F

/-- A byte that stands for itself within a value: no quote, no backslash, and nothing that could end
the line. -/
def isPlain (byte : UInt8) : Bool :=
  !(byte == quote || byte == backslash || byte == lineFeed || byte == carriageReturn)

/-- The escapes of one character: `n`, `t`, the quote, the backslash and the slash. -/
def simpleEscapes : Escape.Table :=
  ⟨[(0x6E, lineFeed), (0x74, 0x09), (quote, quote), (backslash, backslash), (0x2F, 0x2F)]⟩

/-- The text of key bytes, each of which is an ASCII character. -/
def keyText (bytes : List UInt8) : String :=
  String.ofList (bytes.map (fun byte => Char.ofNat byte.toNat))

open Scan

variable {σ : Type} [ByteSource σ]

/-- Consumes the bytes that are accepted, up to the first that is not. -/
def skipWhile (accepts : UInt8 → Bool) : Scan σ Unit :=
  many (byteIf accepts) (steady_byteIf accepts) (advances_byteIf accepts)

theorem steady_skipWhile (accepts : UInt8 → Bool) : Steady (skipWhile accepts : Scan σ Unit) :=
  steady_many _ _

end Entries

end Lookahead
