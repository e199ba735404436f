/-!
# Spelling

How bytes and numbers are spelled in hexadecimal digits, and how diagnostics show a character or a
text.

A run of ASCII digits is read into a machine word. It may be longer than the word: its high digits
are shifted out, so the word holds the value of the run modulo its size.

Characters and texts are shown between quotes, with the quote itself, the backslash and whatever
does not print written as an escape. Only the first 256 code points are looked at; the rest print as
they are.
-/

/-! ## Hexadecimal digits -/

namespace Lookahead.Hex

def digit? (byte : UInt8) : Option UInt8 :=
  if 0x30 ≤ byte ∧ byte ≤ 0x39 then some (byte - 0x30)
  else if 0x61 ≤ byte ∧ byte ≤ 0x66 then some (byte - 0x61 + 10)
  else if 0x41 ≤ byte ∧ byte ≤ 0x46 then some (byte - 0x41 + 10)
  else none

def isDigit (byte : UInt8) : Bool :=
  (digit? byte).isSome

/-- Pushes the digits of a run into `acc` one after the other, from the left. Answers with the
leftmost byte that is no digit, if there is one. -/
def fold {α : Type} (push : α → UInt8 → α) (acc : α) : List UInt8 → Except UInt8 α
  | [] => .ok acc
  | byte :: rest =>
      match digit? byte with
      | none => .error byte
      | some digit => fold push (push acc digit) rest

/-- The value of a run of digits modulo 2^32. No digits are nought. -/
def word (digits : List UInt8) : Except UInt8 UInt32 :=
  fold (fun acc digit => (acc <<< 4) ||| digit.toUInt32) 0 digits

/-- The value of a run of digits modulo 2^8. No digits are nought. -/
def byte (digits : List UInt8) : Except UInt8 UInt8 :=
  fold (fun acc digit => (acc <<< 4) ||| digit) 0 digits

/-- The digits of a number in lower case, with no leading noughts. -/
def lower (n : Nat) : String :=
  String.ofList (Nat.toDigits 16 n)

/-- The digits of a number in upper case, with no leading noughts. -/
def upper (n : Nat) : String :=
  String.ofList ((Nat.toDigits 16 n).map Char.toUpper)

def pair (byte : UInt8) : String :=
  String.ofList [Nat.digitChar (byte.toNat / 16), Nat.digitChar (byte.toNat % 16)]

end Lookahead.Hex

/-! ## Quoted text -/

namespace Lookahead.Quoted

/-- The code points below 256 that do not print: the two blocks of controls, the space that does not
break, and the hyphen that may not show. -/
def isHidden (code : Nat) : Bool :=
  code < 0x20 || (0x7F ≤ code && code < 0xA1) || code == 0xAD

/-- A character between quotes of the given kind. -/
def escape (quote : Char) (c : Char) : String :=
  match c.toNat with
  | 0x00 => "\\0"
  | 0x09 => "\\t"
  | 0x0A => "\\n"
  | 0x0D => "\\r"
  | 0x5C => "\\\\"
  | code =>
      if c = quote then String.ofList [Char.ofNat 0x5C, c]
      else if isHidden code then "\\u\x7b" ++ Hex.lower code ++ "\x7d"
      else c.toString

def char (c : Char) : String :=
  "'" ++ escape (Char.ofNat 0x27) c ++ "'"

def text (s : String) : String :=
  "\"" ++ String.join (s.toList.map (escape (Char.ofNat 0x22))) ++ "\""

end Lookahead.Quoted
