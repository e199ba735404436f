import Lookahead.Entries.Document
import Lookahead.Proofs.Peg

/-!
# The grammar of entry documents

The grammar as parsing expressions over the whole document, with no buffer in sight:

```text
document   = (line-end / assignment)* end
assignment = blanks key blanks "=" blanks value blanks (line-end / end)
key        = (letter / digit / "_")+
value      = quote (escape / plain+)* quote
escape     = backslash (one of n t " \ / | unit (backslash unit)*)
unit       = "u" four hexadecimal digits
```

The units of one escape are decoded together. A run of units that is no UTF-16 ends the parse at its
first `u`, whatever would become of the line.
-/

namespace Lookahead

/-! ## Places -/

/-- The place behind some bytes, `lineByte` starting a line. -/
def Place.behind (lineByte : UInt8) (consumed : List UInt8) : Place where
  byte := consumed.length
  line := 1 + consumed.count lineByte
  column := 1 + (consumed.reverse.takeWhile (· != lineByte)).length

theorem Place.behind_concat (lineByte : UInt8) (bytes : List UInt8) (byte : UInt8) :
    behind lineByte (bytes ++ [byte]) = (behind lineByte bytes).step lineByte byte := by
  unfold behind step
  by_cases hbyte : byte = lineByte
  · rw [if_pos hbyte, hbyte, List.reverse_append, List.reverse_singleton, List.singleton_append,
      List.takeWhile_cons_of_neg (by simp), List.length_append, List.count_append]
    simp
    omega
  · rw [if_neg hbyte, List.reverse_append, List.reverse_singleton, List.singleton_append,
      List.takeWhile_cons_of_pos (by simp [hbyte]), List.length_append, List.count_append]
    simp [hbyte]
    omega

theorem Place.behind_append (lineByte : UInt8) (first second : List UInt8) :
    behind lineByte (first ++ second) = (behind lineByte first).advance lineByte second := by
  induction second generalizing first with
  | nil => rw [List.append_nil, advance_nil]
  | cons byte second ih =>
      rw [List.append_cons, ih, behind_concat, advance_cons]

namespace Grammar

/-- What was consumed of a document when some of it is left. -/
def consumed (doc left : List UInt8) : List UInt8 :=
  doc.take (doc.length - left.length)

/-! ## UTF-16 -/

/-- The characters that units stand for, or the first unit that is half a pair and lacks its other
half. -/
def utf16 : List Nat → Except Nat (List Char)
  | [] => .ok []
  | unit :: units =>
      if 0xD800 ≤ unit ∧ unit ≤ 0xDBFF then
        match units with
        | [] => .error unit
        | low :: others =>
            if 0xDC00 ≤ low ∧ low ≤ 0xDFFF then
              (utf16 others).map
                (Char.ofNat (0x10000 + (unit - 0xD800) * 0x400 + (low - 0xDC00)) :: ·)
            else .error unit
      else if 0xDC00 ≤ unit ∧ unit ≤ 0xDFFF then .error unit
      else (utf16 units).map (Char.ofNat unit :: ·)

/-- The text that units stand for, in UTF-8. -/
def textOf (units : List Nat) : Except Nat (List UInt8) :=
  (utf16 units).map (fun chars => chars.flatMap String.utf8EncodeChar)

/-! ## Terminals -/

/-- The character of a byte, as in ASCII. -/
def char (byte : UInt8) : Char :=
  Char.ofNat byte.toNat

def blankByte (byte : UInt8) : Bool :=
  [' ', '\t'].contains (char byte)

def keyByte (byte : UInt8) : Bool :=
  (char byte).isAlphanum || char byte == '_'

def plainByte (byte : UInt8) : Bool :=
  !(['"', '\\', '\n', '\r'].contains (char byte))

/-- What a hexadecimal digit of either case counts. -/
def hexValue? (byte : UInt8) : Option Nat :=
  ['0', '1', '2', '3', '4', '5', '6', '7', '8', '9', 'a', 'b', 'c', 'd', 'e', 'f'].idxOf?
    (char byte).toLower

/-- The byte that an escape of one character stands for. -/
def meant? (byte : UInt8) : Option UInt8 :=
  let meanings := ['n', 't', '"', '\\', '/'].zip ['\n', '\t', '"', '\\', '/']
  (meanings.lookup (char byte)).map (fun c => UInt8.ofNat c.toNat)

/-! ## The rules -/

open Peg Entries

def lineEnd : Peg Unit :=
  (do let _ ← sat (· == lineFeed); return ()).orElse
    (do let _ ← sat (· == carriageReturn); let _ ← sat (· == lineFeed); return ())

def blanks : Peg Unit := do
  let _ ← star (sat blankByte)
  return ()

def key : Peg String := do
  return String.ofList ((← plus (sat keyByte)).map char)

def hexDigit : Peg Nat :=
  token hexValue?

/-- A number of this many digits behind those that make `value`. -/
def number : Nat → Nat → Peg Nat
  | 0, value => return value
  | count + 1, value => do number count (16 * value + (← hexDigit))

def unit : Peg Nat := do
  let _ ← sat (· == 0x75)
  number 4 0

def nextUnit : Peg Nat := do
  let _ ← sat (· == backslash)
  unit

def units : Peg (List Nat) := do
  let first ← unit
  let others ← star nextUnit
  return first :: others

def simple : Peg (List UInt8) :=
  token (fun byte => (meant? byte).map ([·]))

def escape : Peg (List UInt8) := do
  let _ ← sat (· == backslash)
  simple.orElse (units.decoded textOf)

def piece : Peg (List UInt8) :=
  escape.orElse (plus (sat plainByte))

def value : Peg (List UInt8) := do
  let _ ← sat (· == quote)
  let pieces ← star piece
  let _ ← sat (· == quote)
  return pieces.flatten

def assignment : Peg Entry := do
  blanks
  let key ← key
  blanks
  let _ ← sat (· == 0x3D)
  blanks
  let value ← value
  blanks
  lineEnd.orElse atEnd
  return ⟨key, value⟩

/-- A line on its own, with the entry it holds if it is not blank. -/
def line : Peg (Option Entry) :=
  (do lineEnd; return none).orElse (do return some (← assignment))

/-- Where a line starts that begins with what is left of a document. -/
def lineStart (doc left : List UInt8) : Place :=
  ⟨(consumed doc left).length, 1 + (consumed doc left).count lineFeed, 1⟩

/-- What the lines of a document come to: its entries, unless something is left that is no line. -/
def conclude (label : String) (doc : List UInt8) : Verdict (List (Option Entry)) →
    Except Fault (List Entry)
  | .matched lines [] => .ok (lines.filterMap id)
  | .matched _ left => .error (.noRule (.ofPlace (lineStart doc left) label))
  | .mismatch => .error (.noRule (.ofPlace (lineStart doc doc) label))
  | .aborted unit left =>
      .error (.escape
        ⟨.invalidCodePoint (UInt32.ofNat unit), .behind lineFeed (consumed doc left)⟩)

/-- The entries of a document, or why it has none: the first line that is neither blank nor an
assignment, or an escape before that with units that are no UTF-16. -/
def parse (label : String) (doc : List UInt8) : Except Fault (List Entry) :=
  conclude label doc (star line doc)

/-! ## The same bytes

The reader and the grammar say in their own ways which bytes they accept, and mean the same. -/

theorem forall_byte {P : UInt8 → Prop} (h : ∀ n : Fin 256, P (UInt8.ofFin n)) (byte : UInt8) :
    P byte :=
  h byte.toFin

theorem blankByte_eq : blankByte = isBlank :=
  funext (forall_byte (by decide +kernel))

theorem keyByte_eq : keyByte = isKeyByte :=
  funext (forall_byte (by decide +kernel))

theorem plainByte_eq : plainByte = isPlain :=
  funext (forall_byte (by decide +kernel))

theorem hexValue?_eq (byte : UInt8) : hexValue? byte = (Hex.digit? byte).map UInt8.toNat :=
  forall_byte (P := fun byte => hexValue? byte = (Hex.digit? byte).map UInt8.toNat)
    (by decide +kernel) byte

theorem meant?_eq : meant? = simpleEscapes.get? :=
  funext (forall_byte (by decide +kernel))

end Grammar

end Lookahead
